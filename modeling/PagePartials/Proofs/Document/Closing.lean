import PagePartials.Proofs.Document.Continuation
import PagePartials.Proofs.Document.Linking

/-!
# What an end marker closes

An end marker is compared with the name of the innermost open section only. It closes the section if
its own name, normalized, is a beginning of that name: the whole base, a part of it or nothing at
all, or the base with the first digits of the number behind it. Any other end marker leaves the
section open and is one more of its own lines.

## Main definitions

* `SectionTable.KeepsLinks f`: `f` changes neither the name of a section nor its links
* `Progress.ofText t`: what is remembered after the lines of `t`

## Main results

* `SectionName.prefix_numbered_iff`: the normalized names that a numbered name starts with
* `SectionTable.place_update`: a change that keeps links moves no section
* `Linking.ofText_append_line`: linking goes on with one more line
* `Document.getElem?_sections_append_of_prefix`, `getElem?_sections_append_of_not_prefix`: what an
  end marker behind a text does
* `Document.closes_or_continues`: what the end markers of a page do
-/

namespace PagePartials

open SectionName (Registry normalize numbered separator)

/-! ## What a numbered name starts with -/

namespace SectionName

variable {t u : Text} {k : Nat}

/-- A normalized name does not end with an underscore. -/
theorem getLast?_normalize_ne (t : Text) : (normalize t).getLast? ≠ some separator := by
  intro h
  have hne := List.head?_dropWhile_not (· == separator)
    ((collapse t.lower).dropWhile (· == separator)).reverse
  rw [normalize, strip, List.getLast?_reverse] at h
  rw [h] at hne
  simp at hne

/-- **What a numbered name starts with**: a beginning of its base, or the base with the first digits
of the number. -/
theorem prefix_numbered_iff : normalize t <+: numbered (normalize u) k ↔
    normalize t <+: normalize u ∨ ∃ d, d ≠ [] ∧ d <+: Nat.toDigits 10 k ∧ 2 ≤ k ∧
      normalize t = normalize u ++ separator :: d := by
  rcases Nat.lt_or_ge 1 k with hk | hk
  · rw [numbered_of_lt hk]
    constructor
    · intro h
      rcases List.prefix_or_prefix_of_prefix h (List.prefix_append ..) with h' | ⟨q, hq⟩
      · exact .inl h'
      · rw [← hq, List.prefix_append_right_inj, List.prefix_cons_iff] at h
        rcases h with rfl | ⟨d, rfl, hd⟩
        · exact .inl (by rw [← hq, List.append_nil])
        -- With no digit behind it the underscore would be the last character.
        · refine .inr ⟨d, ?_, hd, hk, hq.symm⟩
          rintro rfl
          exact getLast?_normalize_ne t (by rw [← hq, List.getLast?_concat])
    · rintro (h | ⟨d, -, hd, -, h⟩)
      · exact h.trans (List.prefix_append ..)
      · rw [h, List.prefix_append_right_inj, List.cons_prefix_cons]
        exact ⟨rfl, hd⟩
  · rw [numbered_of_le hk]
    constructor
    · exact .inl
    · rintro (h | ⟨-, -, -, hk', -⟩)
      · exact h
      · omega

end SectionName

/-! ## Changes that keep links -/

namespace SectionTable

variable {t : SectionTable} {r x : Ref} {f : LinkedSection → LinkedSection}

/-- The change leaves the name of a section and its links as they are. -/
structure KeepsLinks (f : LinkedSection → LinkedSection) : Prop where
  name : ∀ s, (f s).name = s.name
  parent : ∀ s, (f s).parent = s.parent
  children : ∀ s, (f s).children = s.children

theorem KeepsLinks.addLine (l : Text) : KeepsLinks (·.addLine l) :=
  ⟨fun _ => rfl, fun _ => rfl, fun _ => rfl⟩

theorem KeepsLinks.endWith (l : Text) : KeepsLinks (·.endWith l) :=
  ⟨fun _ => rfl, fun _ => rfl, fun _ => rfl⟩

/-- What a change keeps of every section, it keeps in a table. -/
theorem view_get_update {α : Type} (g : LinkedSection → α) (hg : ∀ s, g (f s) = g s)
    (r x : Ref) : g ((t.update r f).get x) = g (t.get x) := by
  by_cases hx : x = r
  · subst hx
    by_cases hlt : x < t.size
    · rw [get_update_self hlt, hg]
    · have hle := Nat.le_of_not_lt hlt
      rw [get_of_size_le hle, get_of_size_le (by rwa [size_update])]
  · rw [get_update_of_ne hx]

theorem chain_update (hf : KeepsLinks f) (r : Ref) (fuel : Nat) (p : Option Ref) :
    (t.update r f).chain fuel p = t.chain fuel p := by
  have hparent (x : Ref) := view_get_update (t := t) (·.parent) hf.parent r x
  induction fuel generalizing p with
  | zero => rfl
  | succ fuel ih =>
    cases p with
    | none => rfl
    | some p => rw [chain, chain, isRoot, isRoot, hparent, ih]

theorem namesAbove_update (hf : KeepsLinks f) (r x : Ref) :
    (t.update r f).namesAbove x = t.namesAbove x := by
  have hname (a : Ref) := view_get_update (t := t) (·.name) hf.name r a
  simp only [namesAbove, ancestors, chain_update hf, size_update, hname,
    view_get_update (t := t) (·.parent) hf.parent r x]

theorem fullPath_update (hf : KeepsLinks f) (r x : Ref) :
    (t.update r f).fullPath x = t.fullPath x := by
  rw [fullPath, fullPath, namesAbove_update hf, view_get_update (·.name) hf.name]

/-- **A change that keeps links moves no section**: each stands where it stood. -/
theorem place_update (hf : KeepsLinks f) (r x : Ref) : (t.update r f).place x =
    { t.place x with toSection := ((t.update r f).get x).toSection } := by
  have hpaths : (t.update r f).fullPath = t.fullPath := funext (fullPath_update hf r)
  simp only [place, namesAbove_update hf, hpaths, view_get_update (·.children) hf.children]

end SectionTable

/-! ## One more line -/

/-- What is remembered after the lines of a text. -/
def Progress.ofText (t : Text) : Progress :=
  ((⟨.empty, []⟩ : Progress).readAll ((Text.lines t).dropWhile fun l => !endsHeader l)).2

namespace Body

/-- The open sections are those without an end marker. -/
theorem WellMarked.reverse_openChain {owner : Option Text} {atEnd : Bool} {r r' : Registry}
    {b : Body} (h : b.WellMarked owner atEnd r r') (above : List Text) :
    b.openChain.reverse = ((b.place above).filter (·.endComment.isNone)).map (·.name) := by
  induction h generalizing above with
  | nil => rfl
  | line _ _ ih => exact ih above
  | @closed _ _ r _ _ n start stop inner rest _ inside _ _ ihi iha =>
    have hinner := ihi (above ++ [(r.assign n).1])
    rw [inside.openChain_eq_nil rfl] at hinner
    simp only [openChain, place, placeOne, List.filter_cons, List.filter_append, List.map_append,
      Option.isNone_some, Bool.false_eq_true, if_false, ← hinner, iha above, List.reverse_nil,
      List.nil_append]
  | @unclosed _ r _ n start inner _ _ ih =>
    simp [openChain, place, placeOne, ih (above ++ [(r.assign n).1])]

end Body

theorem Progress.opened_ofText (t : Text) :
    (Progress.ofText t).opened = ((Document.ofText t).unterminated.map (·.name)).reverse := by
  have hm := Body.wellMarked_readAll .empty ((Text.lines t).dropWhile fun l => !endsHeader l)
  have hread := hm.readAll [] rfl
  rw [Body.allLines_readAll, List.append_nil] at hread
  rw [Progress.ofText, hread, ← List.reverse_eq_iff]
  exact hm.reverse_openChain []

namespace Linking

variable {t l : Text} {k : Linking} {d : Document} {i : Nat} {s : PlacedSection}

/-- Behind the header, linking goes on with one more line. -/
theorem ofText_append_line (ht : t.IsEnded) (hl : Text.AreLines [l])
    (hne : (Document.ofText t).sections ≠ []) (hk : ofText t = .ok k) :
    ofText (t ++ l) = k.step ((Progress.ofText t).read l).1 := by
  have hhead : ¬ ((Text.lines t).dropWhile fun l => !endsHeader l).isEmpty = true := by
    intro hnil
    refine Document.body_ne_nil_of_sections_ne_nil hne ?_
    rw [Document.ofText_eq, List.isEmpty_iff.mp hnil]
    rfl
  have hone (e : Event) : k.run [e] = k.step e := by
    cases he : k.step e with
    | ok k' => exact run_cons he
    | error => rw [run, List.foldlM_cons, he]; rfl
  rw [ofText] at hk
  rw [ofText, ht.lines_append, Text.lines_of_areLines hl, List.dropWhile_append, if_neg hhead,
    Progress.readAll_append, run_append hk]
  exact hone _

theorem Links.place_eq (h : k.Links d) (hs : d.sections[i]? = some s) :
    k.table.place (i + 1) = s := by
  obtain ⟨hi, -⟩ := List.getElem?_eq_some_iff.mp hs
  rw [← h.place, List.getElem?_map, h.walk, List.getElem?_range' hi, Option.map_some] at hs
  rw [Nat.add_comm, ← Nat.one_mul i]
  exact Option.some.inj hs

theorem Links.getElem?_sections (h : k.Links d) (hi : i < d.sections.length) :
    d.sections[i]? = some (k.table.place (i + 1)) := by
  rw [List.getElem?_eq_getElem hi, h.place_eq (List.getElem?_eq_getElem hi)]

/-- The section that is current is the last one without an end marker. -/
theorem Links.current_eq (h : k.Links d) (hopen : d.openNumbers.getLast? = some i) :
    k.current = i + 1 := by
  obtain ⟨outer, houter⟩ := List.getLast?_eq_some_iff.mp hopen
  rw [current, h.opened, houter]
  simp

/-- With one section changed in the table, that section of the page is changed. -/
theorem Links.getElem?_sections_update {d' : Document} {f : LinkedSection → LinkedSection}
    {opened : List Ref} (h : k.Links d) (h' : Links ⟨k.table.update (i + 1) f, opened⟩ d')
    (hf : SectionTable.KeepsLinks f) (hs : d.sections[i]? = some s) : d'.sections[i]? =
      some { s with toSection := (f (k.table.get (i + 1))).toSection } := by
  obtain ⟨hi, -⟩ := List.getElem?_eq_some_iff.mp hs
  -- The table has as many sections as before, so the section still has its number.
  have hsize := h'.size
  rw [SectionTable.size_update, h.size, Nat.add_right_cancel_iff] at hsize
  rw [h'.getElem?_sections (hsize ▸ hi), SectionTable.place_update hf, h.place_eq hs,
    SectionTable.get_update_self (by rw [h.size]; exact Nat.succ_lt_succ hi)]

theorem Links.openNumbers_eq {k' : Linking} {d' : Document} (h : k.Links d) (h' : k'.Links d')
    (hopened : k'.opened = k.opened) : d'.openNumbers = d.openNumbers := by
  rw [h.opened, h'.opened, List.append_left_inj, List.reverse_inj] at hopened
  exact List.map_injective_iff.mpr (fun _ _ => Nat.succ.inj) hopened

end Linking

namespace Document

open Linking SectionTable

variable {t l n : Text} {i : Nat} {s : PlacedSection}

/-- The last section without an end marker is the innermost open one. -/
theorem opened_eq_cons (hopen : (ofText t).openNumbers.getLast? = some i)
    (hs : (ofText t).sections[i]? = some s) :
    ∃ outer, (Progress.ofText t).opened = s.name :: outer := by
  obtain ⟨front, hfront⟩ := List.getLast?_eq_some_iff.mp hopen
  rw [Progress.opened_ofText, unterminated_eq, hfront, List.filterMap_append]
  simp [hs]

/-- One more line behind a text with an open section: the section that it is about is the current
one, and what it does is one step. -/
theorem exists_links_append (ht : t.IsEnded) (hl : Text.AreLines [l])
    (hopen : (ofText t).openNumbers.getLast? = some i) (hs : (ofText t).sections[i]? = some s) :
    ∃ k k' : Linking, k.Links (ofText t) ∧ k'.Links (ofText (t ++ l)) ∧ k.current = i + 1 ∧
      (k.table.get (i + 1)).toSection = s.toSection ∧
      k.step ((Progress.ofText t).read l).1 = .ok k' := by
  obtain ⟨k, hk, hlinks⟩ := links_ofText t
  obtain ⟨k', hk', hlinks'⟩ := links_ofText (t ++ l)
  have hne : (ofText t).sections ≠ [] := by
    intro hnil
    rw [hnil] at hs
    exact nomatch hs
  rw [ofText_append_line ht hl hne hk] at hk'
  exact ⟨k, k', hlinks, hlinks', hlinks.current_eq hopen,
    congrArg PlacedSection.toSection (hlinks.place_eq hs), hk'⟩

/-- **An end marker that names the innermost open section**, by a beginning of its name, ends it. -/
theorem getElem?_sections_append_of_prefix (ht : t.IsEnded) (hl : Text.AreLines [l])
    (hm : Marker.ofLine? l = some (.ends n)) (hopen : (ofText t).openNumbers.getLast? = some i)
    (hs : (ofText t).sections[i]? = some s) (hn : normalize n <+: s.name) :
    (ofText (t ++ l)).sections[i]? = some { s with endComment := some l } := by
  obtain ⟨outer, houter⟩ := opened_eq_cons hopen hs
  obtain ⟨k, k', hlinks, hlinks', hcurrent, hget, hstep⟩ := exists_links_append ht hl hopen hs
  have hread : ((Progress.ofText t).read l).1 = .closing l := by
    rcases hp : Progress.ofText t with ⟨r, opened⟩
    rw [hp] at houter
    obtain rfl : opened = s.name :: outer := houter
    rw [Progress.read_of_closes ⟨n, hm, hn⟩]
  rw [hread, step, hcurrent] at hstep
  obtain rfl := Except.ok.inj hstep
  rw [hlinks.getElem?_sections_update hlinks' (.endWith l) hs]
  simp [LinkedSection.endWith, hget]

/-- **Any other end marker** is one more line of that section, and all open sections stay open. -/
theorem getElem?_sections_append_of_not_prefix (ht : t.IsEnded) (hl : Text.AreLines [l])
    (hm : Marker.ofLine? l = some (.ends n)) (hopen : (ofText t).openNumbers.getLast? = some i)
    (hs : (ofText t).sections[i]? = some s) (hn : ¬ normalize n <+: s.name) :
    (ofText (t ++ l)).sections[i]? = some { s with content := s.content ++ [l] } ∧
      (ofText (t ++ l)).openNumbers = (ofText t).openNumbers := by
  obtain ⟨outer, houter⟩ := opened_eq_cons hopen hs
  obtain ⟨k, k', hlinks, hlinks', hcurrent, hget, hstep⟩ := exists_links_append ht hl hopen hs
  have hown : IsOwnLine (Progress.ofText t).opened.head? l := by
    refine .of_ends hm fun name hname => ?_
    rw [houter] at hname
    obtain rfl : s.name = name := Option.some.inj hname
    exact hn
  rw [Progress.read_of_isOwnLine _ hown, step_ofOwnLine, hcurrent] at hstep
  obtain rfl := Except.ok.inj hstep
  constructor
  · rw [hlinks.getElem?_sections_update hlinks' (.addLine l) hs]
    simp [LinkedSection.addLine, hget]
  · exact hlinks.openNumbers_eq hlinks' rfl

/-- A section that has its end marker stays as it is when the text goes on; one that is open keeps
its name, and its own lines in front of new ones. -/
theorem exists_getElem?_sections_append {u : Text} (ht : t.IsEnded ∨ u = [])
    (hs : (ofText t).sections[i]? = some s) :
    ∃ s', (ofText (t ++ u)).sections[i]? = some s' ∧ s'.name = s.name ∧ s.content <+: s'.content ∧
      (s.endComment ≠ none → s' = s) := by
  rcases ht with ht | rfl
  · obtain ⟨-, -, hgrows⟩ := growsTo_ofText_append ht u
    obtain ⟨g, hg, rfl⟩ := Body.exists_region hs
    obtain ⟨g', hg', hgg'⟩ := hgrows.exists_region hg
    obtain ⟨hname, -, -⟩ := hgg'.names_eq
    refine ⟨g'.placed, Body.getElem?_place hg', hname, hgg'.lines_isPrefix, fun hstop => ?_⟩
    rw [hgg'.eq_of_stop_ne_none hstop]
  · rw [List.append_nil]
    exact ⟨s, hs, rfl, List.prefix_rfl, fun _ => rfl⟩

/-- **What the end markers of a page do.** The end marker of a section has a name that, normalized,
is a beginning of the base of the section's name, or that base with the first digits of the number
behind it. Any end marker behind the beginning of a section, met while that section is the innermost
open one, ends it if its normalized name is a beginning of the section's name; then the section has
the own lines that it had. If it is none, the section stays open, and so do those around it, and the
line is the next of its own lines. -/
theorem closes_or_continues (t : Text) :
    (∀ s ∈ (ofText t).sections, ∀ stop ∈ s.endComment, ∃ n k,
      Marker.ofLine? stop = some (.ends n) ∧ 1 ≤ k ∧ s.name = numbered (normalize s.markerName) k ∧
      (normalize n <+: normalize s.markerName ∨ ∃ d, d ≠ [] ∧ d <+: Nat.toDigits 10 k ∧ 2 ≤ k ∧
        normalize n = normalize s.markerName ++ separator :: d)) ∧
    ∀ (before after : List Text) (l n : Text) (i : Nat) (s : PlacedSection),
      Text.lines t = before ++ l :: after → Marker.ofLine? l = some (.ends n) →
      (ofText before.flatten).openNumbers.getLast? = some i →
      (ofText before.flatten).sections[i]? = some s →
      ∃ s', (ofText t).sections[i]? = some s' ∧ s'.name = s.name ∧
        (normalize n <+: s.name → s'.content = s.content ∧ s'.endComment = some l) ∧
        (¬ normalize n <+: s.name → s.content ++ [l] <+: s'.content ∧
          (ofText (before ++ [l]).flatten).openNumbers = (ofText before.flatten).openNumbers) := by
  constructor
  · intro s hs stop hstop
    have hmarked := isMarked_of_mem_sections hs
    obtain ⟨start, u, k, hstart, hbegins, hname, hk⟩ := hmarked.begins
    obtain ⟨n, hn, hprefix⟩ := hmarked.ends stop hstop
    have hbase : s.markerName = u := by
      simp [Section.markerName, hstart, hbegins, Marker.name]
    rw [hname, SectionName.prefix_numbered_iff] at hprefix
    rw [hbase]
    exact ⟨n, k, hn, hk, hname, hprefix⟩
  · intro before after l n i s hlines hm hopen hs
    obtain ⟨hended, hline, htext, hrest⟩ := Text.cut_of_lines_eq hlines
    have hfront : (before ++ [l]).flatten = before.flatten ++ l := by simp
    by_cases hn : normalize n <+: s.name
    · have hclosed := getElem?_sections_append_of_prefix hended hline hm hopen hs hn
      obtain ⟨s', hs', hname, -, hsame⟩ := exists_getElem?_sections_append hrest hclosed
      obtain rfl := hsame (Option.some_ne_none l)
      exact ⟨_, htext ▸ hs', hname, fun _ => ⟨rfl, rfl⟩, fun h => absurd hn h⟩
    · obtain ⟨hsection, hnumbers⟩ :=
        getElem?_sections_append_of_not_prefix hended hline hm hopen hs hn
      obtain ⟨s', hs', hname, hcontent, -⟩ := exists_getElem?_sections_append hrest hsection
      exact ⟨s', htext ▸ hs', hname, fun h => absurd h hn, fun _ => ⟨hcontent, hfront ▸ hnumbers⟩⟩

/-- The line that begins a section. -/
def navbarBegin : Text := "<!-- begin: navbar -->\n".toList

/-- An end marker with another name. -/
def menuEnd : Text := "<!-- end: menu -->\n".toList

/-- An end marker with the first letters of the section's name. -/
def navEnd : Text := "<!-- end: nav -->\n".toList

/-- The section of a page with these lines. -/
def navbar (content : List Text) (stop : Option Text) : PlacedSection where
  name := "navbar".toList
  content := content
  startComment := some navbarBegin
  endComment := stop
  above := []
  below := []

/-- The one end marker is text of the section, and the other one ends it. -/
theorem closes_or_continues_navbar :
    Text.lines [navbarBegin, menuEnd, navEnd].flatten = [navbarBegin, menuEnd, navEnd] ∧
      (ofText navbarBegin).sections[0]? = some (navbar [] none) ∧
      ¬ normalize "menu".toList <+: "navbar".toList ∧
      (ofText [navbarBegin, menuEnd].flatten).sections[0]? = some (navbar [menuEnd] none) ∧
      normalize "nav".toList <+: "navbar".toList ∧
      ∃ s, (ofText [navbarBegin, menuEnd, navEnd].flatten).sections[0]? = some s ∧
        [menuEnd] <+: s.content ∧ s.content = [menuEnd] ∧ s.endComment = some navEnd := by
  have hlines : Text.lines [navbarBegin, menuEnd, navEnd].flatten =
      [navbarBegin, menuEnd, navEnd] := by decide
  have hbegun : (ofText navbarBegin).sections[0]? = some (navbar [] none) ∧
      (ofText navbarBegin).openNumbers.getLast? = some 0 := by decide +kernel
  have hopen : (ofText [navbarBegin, menuEnd].flatten).sections[0]? = some (navbar [menuEnd] none) ∧
      (ofText [navbarBegin, menuEnd].flatten).openNumbers.getLast? = some 0 := by decide +kernel
  have hmenu : ¬ normalize "menu".toList <+: "navbar".toList := by decide
  have hnav : normalize "nav".toList <+: "navbar".toList := by decide
  obtain ⟨-, hends⟩ := closes_or_continues [navbarBegin, menuEnd, navEnd].flatten
  obtain ⟨s, hs, -, -, hcontinues⟩ := hends [navbarBegin] [navEnd] menuEnd "menu".toList 0
    (navbar [] none) hlines (by decide) hbegun.2 hbegun.1
  obtain ⟨s', hs', -, hcloses, -⟩ := hends [navbarBegin, menuEnd] [] navEnd "nav".toList 0
    (navbar [menuEnd] none) hlines (by decide) hopen.2 hopen.1
  obtain rfl : s = s' := Option.some.inj (hs.symm.trans hs')
  exact ⟨hlines, hbegun.1, hmenu, hopen.1, hnav, s, hs, (hcontinues hmenu).1, hcloses hnav⟩

/-- A section can be ended by a name that is neither the one in its begin marker nor its own. -/
theorem not_endName_eq : ¬ ∀ (t : Text), ∀ s ∈ (ofText t).sections, ∀ (stop n : Text),
    s.endComment = some stop → Marker.ofLine? stop = some (.ends n) →
      normalize n = normalize s.markerName ∨ normalize n = s.name := by
  intro h
  have hs : navbar [menuEnd] (some navEnd) ∈
      (ofText [navbarBegin, menuEnd, navEnd].flatten).sections := by
    decide +kernel
  have hname := h _ _ hs _ "nav".toList rfl (by decide)
  revert hname
  decide

end Document

end PagePartials
