import PagePartials.Proofs.Document.Locations
import PagePartials.Proofs.Document.Slices
import PagePartials.Proofs.Extraction.Partials

/-!
# Partials read as pages

A partial begins with its section's begin marker, so it can be read as a page itself. That page has
no header and one section, which has the base of the original name and all lines of the partial:
include lines carry no marker, and what was no marker of the section under its numbered name is none
under the base either. Only the last line may be read another way, as text, if it names the number;
that changes nothing in the partial. So a partial that is split again gives itself.

## Main definitions

* `Body.ofLines ls`: the body that is the lines `ls`
* `Document.includeLines d i`: the include lines in the partial of section `i`

## Main results

* `Document.ofText_single`: which texts are read as a page with one section and nothing else
* `Document.exists_lines_render`: the lines of a partial
* `Document.exists_ofText_render`: the page that a partial is read as
* `Extraction.ofText_render`: a partial that is split again gives itself
-/

namespace PagePartials

open SectionName (Registry normalize IsName)

/-! ## Pages with one section -/

namespace Body

/-- The body that is the given lines. -/
def ofLines : List Text → Body
  | [] => nil
  | l :: ls => line l (ofLines ls)

@[simp] theorem allLines_ofLines (ls : List Text) : (ofLines ls).allLines = ls := by
  induction ls with
  | nil => rfl
  | cons l ls ih => rw [ofLines, allLines, ih]

@[simp] theorem lines_ofLines (ls : List Text) : (ofLines ls).lines = ls := by
  induction ls with
  | nil => rfl
  | cons l ls ih => rw [ofLines, lines, ih]

@[simp] theorem names_ofLines (ls : List Text) : (ofLines ls).names = [] := by
  induction ls with
  | nil => rfl
  | cons l ls ih => rw [ofLines, names, ih]

@[simp] theorem place_ofLines (above : List Text) (ls : List Text) :
    (ofLines ls).place above = [] := by
  induction ls with
  | nil => rfl
  | cons l ls ih => rw [ofLines, place, ih]

theorem wellMarked_ofLines {owner : Option Text} {ls : List Text}
    (h : ∀ l ∈ ls, IsOwnLine owner l) (atEnd : Bool) (r : Registry) :
    (ofLines ls).WellMarked owner atEnd r r := by
  induction ls with
  | nil => exact .nil
  | cons l ls ih =>
    obtain ⟨hl, hls⟩ := List.forall_mem_cons.mp h
    exact .line hl (ih hls)

end Body

/-- The first name given for a base is the base. -/
theorem SectionName.Registry.assign_empty (t : Text) : (empty.assign t).1 = normalize t :=
  numbered_of_le (Nat.le_refl 1) _

/-- A text whose first line begins a section, with nothing but lines of that section behind it and
perhaps the line that ends it, is read as a page that is this section. -/
theorem Document.ofText_single {t start n : Text} {ls : List Text} {stop : Option Text}
    (hlines : Text.lines t = start :: (ls ++ stop.toList))
    (hbegins : Marker.ofLine? start = some (.begins n)) (hproduct : ¬ productWord <:+: start)
    (hown : ∀ l ∈ ls, IsOwnLine (some (normalize n)) l)
    (hstop : ∀ e ∈ stop, Closes (normalize n) e) :
    ofText t = ⟨[], .nested (normalize n) start (.ofLines ls) stop .nil⟩ := by
  show ofText t = ⟨([] : List Text).flatten, _⟩
  refine ofText_eq_of_lines ?_ (by simp) ?_ ?_
  · simpa [Body.allLines] using hlines
  · intro l hl
    obtain rfl : start = l := by simpa [Body.allLines] using hl
    exact ⟨⟨n, hbegins⟩, hproduct⟩
  · have hname := Registry.assign_empty n
    rw [← hname] at hown hstop ⊢
    have hin (atEnd : Bool) := Body.wellMarked_ofLines hown atEnd (Registry.empty.assign n).2
    cases stop with
    | none => exact ⟨_, .unclosed hbegins (hin true)⟩
    | some e => exact ⟨_, .closed hbegins (hin false) (hstop e rfl) .nil⟩

/-! ## The lines of a partial -/

namespace IsOwnLine

variable {owner : Option Text} {base name l u : Text}

/-- A line that belongs to the text of a section does so under each beginning of its name. -/
theorem of_isPrefix (h : IsOwnLine (some name) l) (hp : base <+: name) :
    IsOwnLine (some base) l := by
  rcases hm : Marker.ofLine? l with _ | n | n
  · exact .of_none hm
  · exact absurd hm (h.ofLine?_ne_begins n)
  · refine .of_ends hm ?_
    rintro _ ⟨⟩ hn
    exact h.not_prefix_name hm (hn.trans hp)

/-- The last marker of a section is an own line under each name that it does not end. -/
theorem of_not_closes (h : Closes name l) (hb : ¬ Closes base l) : IsOwnLine (some base) l := by
  obtain ⟨n, hm, -⟩ := h
  refine .of_ends hm ?_
  rintro _ ⟨⟩ hn
  exact hb ⟨n, hm, hn⟩

theorem append (h : IsOwnLine owner l) (hu : Comment.IsApart u) : IsOwnLine owner (l ++ u) := by
  unfold IsOwnLine at h ⊢
  rwa [Marker.ofLine?_append hu]

end IsOwnLine

namespace Document

variable {t start l : Text} {i : Nat} {s : PlacedSection}

/-- The lines that include the sections right inside the section of the given number. -/
def includeLines (d : Document) (i : Nat) : List Text :=
  (d.children (some i)).map (·.includeLine)

theorem isPlainLine_of_mem_includeLines (hl : l ∈ (ofText t).includeLines i) : IsPlainLine l := by
  obtain ⟨c, hc, rfl⟩ := List.mem_map.mp hl
  exact PlacedSection.isPlainLine_includeLine (isName_of_mem_children hc)

theorem areLines_includeLines (t : Text) (i : Nat) : Text.AreLines ((ofText t).includeLines i) :=
  .of_ended fun _ hl => (isPlainLine_of_mem_includeLines hl).ended

/-- Include lines are not blank. -/
theorem includeLines_eq_nil {d : Document} (h : Text.isBlank (d.includeLines i).flatten = true) :
    d.includeLines i = [] := by
  rcases List.eq_nil_or_concat' (d.children (some i)) with hc | ⟨cs, c, hc⟩
  · rw [includeLines, hc, List.map_nil]
  · rw [includeLines, hc] at h
    simp [PlacedSection.isBlank_includeLine] at h

/-- A partial is its markers with what is shown of the section and the include lines between
them. -/
theorem render_eq_flatten (hs : (ofText t).sections[i]? = some s)
    (hstart : s.startComment = some start) :
    s.render = (start :: (s.shownLines ++ (ofText t).includeLines i) ++
      s.endComment.toList).flatten := by
  have hmarked : s.IsMarked := isMarked_of_mem_sections (List.mem_of_getElem? hs)
  rw [PlacedSection.render, hmarked.render_eq, flatMap_includeLine_below hs, hstart,
    List.flatMap_def, ← includeLines]
  cases s.endComment <;> simp

/-- What a partial shows of its section are lines. -/
theorem areLines_shownLines (hs : (ofText t).sections[i]? = some s)
    (hstart : s.startComment = some start) :
    Text.AreLines (start :: s.shownLines ++ s.endComment.toList) := by
  obtain ⟨before, inside, after, hcut⟩ := exists_cutsAt hs
  refine (lines_eq_append t).2.sublist ?_
  rw [hcut.eq_append, hstart]
  have hshown := (s.shownLines_sublist.trans hcut.content).append_right s.endComment.toList
  exact (hshown.cons_cons start).trans
    ((List.sublist_append_right before _).trans (List.sublist_append_left _ after))

/-- Before its last marker every line of a section has its newline, so in the partial the lines are
put together as they are. -/
theorem lines_render_of_endComment {e : Text} (hs : (ofText t).sections[i]? = some s)
    (hstart : s.startComment = some start) (hend : s.endComment = some e) :
    Text.lines s.render = start :: (s.shownLines ++ (ofText t).includeLines i) ++ [e] := by
  have hsource := areLines_shownLines hs hstart
  rw [hend, Option.toList_some] at hsource
  have hown : Text.AreLines (start :: s.shownLines) := hsource.sublist (List.sublist_append_left ..)
  have hlast : Text.AreLines [e] := hsource.sublist (List.sublist_append_right ..)
  have hended : ∀ l ∈ start :: s.shownLines, l.getLast? = some '\n' := fun l hl =>
    (List.pairwise_append.mp hsource.ended).2.2 l hl e List.mem_cons_self
  have hall := hown.append ((areLines_includeLines t i).append hlast fun _ _ hl =>
    (isPlainLine_of_mem_includeLines hl).getLast?_eq) fun _ => hended
  rw [render_eq_flatten hs hstart, hend, Option.toList_some, List.cons_append, List.append_assoc]
  exact Text.lines_flatten hall

/-- Without a last marker the text may end in the middle of a line, and then an include line goes on
from it. -/
theorem exists_lines_render_of_endComment_eq_none (hs : (ofText t).sections[i]? = some s)
    (hstart : s.startComment = some start) (hend : s.endComment = none) :
    ∃ ls, Text.lines s.render = start :: ls ∧
      ls.flatten = (s.shownLines ++ (ofText t).includeLines i).flatten ∧
      ∀ l ∈ ls, l ∈ s.shownLines ∨ l ∈ (ofText t).includeLines i ∨
        ∃ x ∈ s.shownLines, ∃ y ∈ (ofText t).includeLines i, l = x ++ y := by
  obtain ⟨ls, hls⟩ := List.head?_eq_some_iff.mp
    ((head?_lines_render (List.mem_of_getElem? hs)).trans hstart)
  have hflat : ls.flatten = (s.shownLines ++ (ofText t).includeLines i).flatten := by
    have hr := Text.flatten_lines s.render
    rw [hls, render_eq_flatten hs hstart, hend, Option.toList_none, List.append_nil] at hr
    exact List.append_cancel_left hr
  refine ⟨ls, hls, hflat, fun l hl => ?_⟩
  have hlines : Text.AreLines (start :: ls) := hls ▸ Text.areLines_lines s.render
  have hshown : Text.AreLines s.shownLines :=
    (areLines_shownLines hs hstart).tail.sublist (List.sublist_append_left ..)
  rw [← Text.lines_flatten hlines.tail, hflat, List.flatten_append] at hl
  exact Text.mem_lines_append hshown (areLines_includeLines t i) hl

/-- **The lines of a partial**: the first marker, what is shown of the section, and the last marker
if there is one. In between stand own lines and include lines; only in a section that the text ends
in can an own line lack its newline, and then an include line may go on from it. -/
theorem exists_lines_render (hs : (ofText t).sections[i]? = some s)
    (hstart : s.startComment = some start) :
    ∃ ls, Text.lines s.render = start :: (ls ++ s.endComment.toList) ∧
      ls.flatten = (s.shownLines ++ (ofText t).includeLines i).flatten ∧
      ∀ l ∈ ls, l ∈ s.shownLines ∨ l ∈ (ofText t).includeLines i ∨
        ∃ x ∈ s.shownLines, ∃ y ∈ (ofText t).includeLines i, l = x ++ y := by
  cases hend : s.endComment with
  | none =>
    obtain ⟨ls, hls, hflat, hkinds⟩ := exists_lines_render_of_endComment_eq_none hs hstart hend
    exact ⟨ls, by rw [hls, Option.toList_none, List.append_nil], hflat, hkinds⟩
  | some e =>
    exact ⟨_, lines_render_of_endComment hs hstart hend, rfl, fun l hl =>
      (List.mem_append.mp hl).imp_right .inl⟩

/-! ## The page that a partial is read as -/

/-- What stands between the markers of a partial is never just a blank line. -/
theorem isBlank_eq_false_of_flatten (hl : Text.AreLines [l]) (hshown : Text.AreLines s.shownLines)
    (hflat : [l].flatten = (s.shownLines ++ (ofText t).includeLines i).flatten) :
    l.isBlank = false := by
  rw [← Bool.not_eq_true]
  intro hblank
  rw [List.flatten_append] at hflat
  have hboth : Text.isBlank s.shownLines.flatten = true ∧
      Text.isBlank ((ofText t).includeLines i).flatten = true := by
    rw [← Bool.and_eq_true, ← Text.isBlank_append, ← hflat]
    simpa using hblank
  -- So there is no include line, and the blank line is all that is shown.
  rw [includeLines_eq_nil hboth.2, List.flatten_nil, List.append_nil] at hflat
  have hone : s.shownLines = [l] := by
    rw [← Text.lines_flatten hshown, ← hflat, Text.lines_flatten hl]
  exact s.toSection.shownLines_ne_singleton hblank hone

/-- What stands between the markers of a partial are own lines of the section, under the base of its
name as well, and not just a blank one. -/
theorem exists_ownLines_render {base : Text} (hs : (ofText t).sections[i]? = some s)
    (hstart : s.startComment = some start) (hbase : base <+: s.name) :
    ∃ ls, Text.lines s.render = start :: (ls ++ s.endComment.toList) ∧
      (∀ l ∈ ls, IsOwnLine (some base) l) ∧ ¬ ∃ l, ls = [l] ∧ l.isBlank = true := by
  have hmarked : s.IsMarked := isMarked_of_mem_sections (List.mem_of_getElem? hs)
  obtain ⟨ls, hlines, hflat, hkinds⟩ := exists_lines_render hs hstart
  have hshown : ∀ l ∈ s.shownLines, IsOwnLine (some base) l := fun l hl =>
    (hmarked.own l (s.shownLines_sublist.subset hl)).of_isPrefix hbase
  have hapart : ∀ l ∈ (ofText t).includeLines i, Comment.IsApart l := fun _ hl =>
    (isPlainLine_of_mem_includeLines hl).isApart
  refine ⟨ls, hlines, fun l hl => ?_, ?_⟩
  · rcases hkinds l hl with h | h | ⟨x, hx, y, hy, rfl⟩
    · exact hshown l h
    · exact .of_none (Marker.ofLine?_eq_none (hapart l h))
    · exact (hshown x hx).append (hapart y hy)
  · rintro ⟨l, rfl, hb⟩
    have hrender : Text.AreLines (start :: ([l] ++ s.endComment.toList)) :=
      hlines ▸ Text.areLines_lines s.render
    have hl : Text.AreLines [l] := hrender.tail.sublist (List.sublist_append_left ..)
    have hsource : Text.AreLines s.shownLines :=
      (areLines_shownLines hs hstart).tail.sublist (List.sublist_append_left ..)
    rw [isBlank_eq_false_of_flatten hl hsource hflat] at hb
    exact Bool.false_ne_true hb

/-- **The page that a partial is read as**: one section, with the base of the name and no section
inside, that shows all its lines, which are those of the partial. -/
theorem exists_ofText_render (hs : s ∈ (ofText t).sections)
    (hproduct : ¬ productWord <:+: s.startComment.getD []) :
    ∃ start ls stop, s.startComment = some start ∧
      ofText s.render = ⟨[], .nested (normalize s.markerName) start (.ofLines ls) stop .nil⟩ ∧
      (¬ ∃ l, ls = [l] ∧ l.isBlank = true) ∧
      s.render = (start :: (ls ++ stop.toList)).flatten := by
  obtain ⟨i, hi⟩ := List.mem_iff_getElem?.mp hs
  have hmarked : s.IsMarked := isMarked_of_mem_sections hs
  obtain ⟨start, n, k, hstart, hbegins, hname, -⟩ := hmarked.begins
  have hmn : s.markerName = n := by simp [Section.markerName, hstart, hbegins, Marker.name]
  have hbase : normalize n <+: s.name := hname ▸ SectionName.prefix_numbered _ _
  obtain ⟨ls, hlines, hown, hblank⟩ := exists_ownLines_render hi hstart hbase
  have hrender : s.render = (start :: (ls ++ s.endComment.toList)).flatten := by
    rw [← hlines, Text.flatten_lines]
  rw [hstart, Option.getD_some] at hproduct
  rw [hmn]
  by_cases hcloses : ∀ e ∈ s.endComment, Closes (normalize n) e
  -- The last marker ends the section under its base, too.
  · exact ⟨start, ls, s.endComment, hstart, ofText_single hlines hbegins hproduct hown hcloses,
      hblank, hrender⟩
  -- The last marker names the number, so it is one more line of the section.
  · push Not at hcloses
    obtain ⟨e, he, hnot⟩ := hcloses
    have hends : Closes s.name e := hmarked.ends e he
    rw [Option.mem_def.mp he, Option.toList_some] at hlines hrender
    have hownAll : ∀ l ∈ ls ++ [e], IsOwnLine (some (normalize n)) l := by
      rw [List.forall_mem_append, List.forall_mem_singleton]
      exact ⟨hown, .of_not_closes hends hnot⟩
    refine ⟨start, ls ++ [e], none, hstart, ofText_single (by rw [hlines]; simp) hbegins hproduct
      hownAll (by simp), ?_, by rw [hrender]; simp⟩
    rintro ⟨l, hl, hb⟩
    obtain ⟨m, hm, -⟩ := hends
    have hel : e = l := by
      have hlast := congrArg List.getLast? hl
      simpa using hlast
    rw [← hel, Marker.isBlank_eq_false hm] at hb
    exact Bool.false_ne_true hb

end Document

/-! ## Splitting a partial -/

namespace Extraction

/-- **A partial that is split again gives itself.** The partial of any section of a page, unless its
begin marker names a product, is split into one partial, which is the same text. Read as a page it
has no header and no line outside of its section; the section has the base of the original name,
begins with the same line, and has no section inside. -/
theorem ofText_render (t : Text) (source : Option Text) (s : PlacedSection)
    (hs : s ∈ (Document.ofText t).sections)
    (hproduct : ¬ productWord <:+: s.startComment.getD []) :
    ∃ notices e p u, ofText s.render source = (notices, .ok e) ∧ e.partials = [p] ∧
      p.content = s.render ∧ (Document.ofText s.render).header = [] ∧
      (Document.ofText s.render).sections = [u] ∧ (Document.ofText s.render).top = [u] ∧
      u.name = normalize s.markerName ∧ u.startComment = s.startComment ∧ u.below = [] ∧
      (Document.ofText s.render).body.lines = [] := by
  obtain ⟨start, ls, stop, hstart, hdoc, hblank, hrender⟩ :=
    Document.exists_ofText_render hs hproduct
  let u := Body.placeOne [] (normalize s.markerName) start (.ofLines ls) stop
  have hsections : (Document.ofText s.render).sections = [u] := by
    rw [hdoc]
    simp [Document.sections, Body.place, u]
  -- The partial of the section read is the partial it was read from.
  have hu : u.IsMarked := Document.isMarked_of_mem_sections (hsections ▸ List.mem_singleton_self u)
  have hcontent : u.content = ls := Body.lines_ofLines ls
  have hbelow : u.below = [] := by simp [u, Body.placeOne]
  have hsame : u.render = s.render := by
    rw [PlacedSection.render, hu.render_eq, hbelow, Section.shownLines_eq_content, hcontent,
      hrender]
    · cases stop <;> simp [u, Body.placeOne]
    · rwa [hcontent]
  obtain ⟨notices, e, he, hp⟩ := partials_ofText s.render source
  rw [hsections] at hp
  refine ⟨notices, e, Partial.ofSection u, u, he, hp, hsame, ?_, hsections, ?_, rfl, ?_, hbelow,
    ?_⟩
  · rw [hdoc]
  · rw [hdoc]
    rfl
  · exact hstart.symm
  · rw [hdoc]
    rfl

/-- The partial of a section with a numbered name gives itself when it is split again, with the last
marker, which names the number, as one of its lines. -/
theorem ofText_render_numberedSection :
    Document.numberedSection ∈ (Document.ofText Document.numberedPage).sections ∧
      ¬ productWord <:+: Document.numberedSection.startComment.getD [] ∧
      ∃ notices e p, ofText Document.numberedSection.render none = (notices, .ok e) ∧
        e.partials = [p] ∧ p.content = Document.numberedSection.render := by
  have hmem := List.mem_of_getElem? Document.sections_numberedPage
  have hproduct : ¬ productWord <:+: Document.numberedSection.startComment.getD [] := by
    rw [← Text.occursIn_iff]
    decide
  obtain ⟨notices, e, p, _, he, hp, hcontent, -⟩ :=
    ofText_render Document.numberedPage none Document.numberedSection hmem hproduct
  exact ⟨hmem, hproduct, notices, e, p, he, hp, hcontent⟩

end Extraction

end PagePartials
