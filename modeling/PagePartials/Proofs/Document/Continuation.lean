import PagePartials.Proofs.Document.Preorder
import Mathlib.Data.List.Infix

/-!
# Texts that go on

What happens to a page when its text goes on, where the text so far is empty or ends with a newline.
Reading has then done with every line of it: a section that has its end marker stays as it is, with
all that stands inside it, and what is read later comes to stand behind it. A section without an end
marker may get one, and more lines and sections inside. So the sections of the page keep their
numbers, and new ones come after all of them.

## Main definitions

* `Body.GrowsTo b c`: `b` becomes `c` as the text goes on
* `Body.SplitGrowsTo x y`: the same for what events are split into
* `Region.GrowsTo g h`: the same for a section with all that stands inside it

## Main results

* `Body.splitGrowsTo_append`: more events make what they are split into grow
* `Body.GrowsTo.exists_region`: sections keep their numbers and grow
* `Document.growsTo_ofText_append`: a page grows as its text goes on
* `Document.ofText_append_keeps`: what a longer text leaves as it was
-/

namespace PagePartials

namespace Body

/-! ## Growing bodies -/

/-- `b.GrowsTo c`: with more behind its text, the body `b` becomes `c`. What comes is put at the end,
which is inside the last section if that has no end marker. -/
inductive GrowsTo : Body → Body → Prop
  | nil (c : Body) : GrowsTo nil c
  | line (l : Text) {rest rest' : Body} (after : GrowsTo rest rest') :
      GrowsTo (line l rest) (line l rest')
  | closed (name start : Text) (inner : Body) (stop : Text) {rest rest' : Body}
      (after : GrowsTo rest rest') :
      GrowsTo (nested name start inner (some stop) rest) (nested name start inner (some stop) rest')
  | opened (name start : Text) {inner inner' : Body} (stop : Option Text) (rest : Body)
      (inside : GrowsTo inner inner') :
      GrowsTo (nested name start inner none nil) (nested name start inner' stop rest)

/-- A region stays as it is, or it has no end marker and its body grows. -/
inductive Region.GrowsTo : Region → Region → Prop
  | same (g : Region) : Region.GrowsTo g g
  | opened (above : List Text) (name start : Text) {inner inner' : Body} (stop : Option Text)
      (inside : inner.GrowsTo inner') :
      Region.GrowsTo ⟨above, name, start, inner, none⟩ ⟨above, name, start, inner', stop⟩

namespace GrowsTo

variable {b c : Body}

theorem lines_isPrefix (h : b.GrowsTo c) : b.lines <+: c.lines := by
  induction h with
  | nil c => exact List.nil_prefix
  | line l _ ih => exact List.cons_prefix_cons.mpr ⟨rfl, ih⟩
  | closed _ _ _ _ _ ih => exact ih
  | opened => exact List.nil_prefix

theorem names_isPrefix (h : b.GrowsTo c) : b.names <+: c.names := by
  induction h with
  | nil c => exact List.nil_prefix
  | line _ _ ih => exact ih
  | closed name _ _ _ _ ih => exact List.cons_prefix_cons.mpr ⟨rfl, ih⟩
  | opened name => exact List.cons_prefix_cons.mpr ⟨rfl, List.nil_prefix⟩

/-- Sections keep their numbers, and stand where they stood. -/
theorem parentsFrom_isPrefix (h : b.GrowsTo c) (parent : Option Nat) (next : Nat) :
    b.parentsFrom parent next <+: c.parentsFrom parent next := by
  induction h generalizing parent next with
  | nil c => exact List.nil_prefix
  | line _ _ ih => exact ih parent next
  | closed _ _ inner _ _ ih =>
    refine List.cons_prefix_cons.mpr ⟨rfl, ?_⟩
    exact (List.prefix_append_right_inj _).mpr (ih parent (next + 1 + inner.count))
  | opened _ _ _ _ _ ih =>
    refine List.cons_prefix_cons.mpr ⟨rfl, ?_⟩
    rw [parentsFrom, List.append_nil]
    exact (ih (some next) (next + 1)).trans (List.prefix_append ..)

/-- **Sections keep their numbers and grow.** -/
theorem exists_region (h : b.GrowsTo c) {above : List Text} {i : Nat} {g : Region}
    (hg : (b.regions above)[i]? = some g) : ∃ g', (c.regions above)[i]? = some g' ∧ g.GrowsTo g' := by
  induction h generalizing above i with
  | nil c => simp [regions] at hg
  | line _ _ ih => exact ih hg
  | closed _ _ _ _ _ ih =>
    cases i with
    | zero => exact ⟨g, hg, .same g⟩
    | succ i =>
      rw [getElem?_regions_nested_succ] at hg ⊢
      split at hg
      next hi => exact ⟨g, by rwa [if_pos hi], .same g⟩
      next hi =>
        rw [if_neg hi]
        exact ih hg
  | opened name start stop rest inside ih =>
    cases i with
    | zero =>
      obtain rfl := Option.some.inj hg
      exact ⟨_, rfl, .opened above name start stop inside⟩
    | succ i =>
      rw [getElem?_regions_nested_succ] at hg ⊢
      split at hg
      -- What stands inside the open section has its number there, however much is added.
      next hi =>
        obtain ⟨g', hg', hgrows⟩ := ih hg
        refine ⟨g', ?_, hgrows⟩
        obtain ⟨hlt, -⟩ := List.getElem?_eq_some_iff.mp hg'
        rw [length_regions] at hlt
        rwa [if_pos hlt]
      next => simp [regions] at hg

end GrowsTo

namespace Region.GrowsTo

variable {g g' : Region}

/-- A section with an end marker stays as it is. -/
theorem eq_of_stop_ne_none (h : g.GrowsTo g') (hstop : g.stop ≠ none) : g' = g := by
  cases h with
  | same => rfl
  | opened => exact absurd rfl hstop

theorem names_eq (h : g.GrowsTo g') :
    g'.name = g.name ∧ g'.above = g.above ∧ g'.start = g.start := by
  cases h with
  | same => exact ⟨rfl, rfl, rfl⟩
  | opened => exact ⟨rfl, rfl, rfl⟩

theorem lines_isPrefix (h : g.GrowsTo g') : g.inner.lines <+: g'.inner.lines := by
  cases h with
  | same => exact List.prefix_rfl
  | opened _ _ _ _ inside => exact inside.lines_isPrefix

theorem below_isPrefix (h : g.GrowsTo g') : g.placed.below <+: g'.placed.below := by
  cases h with
  | same => exact List.prefix_rfl
  | opened _ _ _ _ inside => exact inside.names_isPrefix.map _

end Region.GrowsTo

/-! ## More events -/

/-- What events are split into grows: the bodies that a closing line ends stay as they are, and the
last one, which none ends, grows. -/
inductive SplitGrowsTo : Body × List (Text × Body) → Body × List (Text × Body) → Prop
  | unclosed {b c : Body} (after : List (Text × Body)) (grows : b.GrowsTo c) :
      SplitGrowsTo (b, []) (c, after)
  | closed (b : Body) (stop : Text) {rest rest' : Body} {after after' : List (Text × Body)}
      (behind : SplitGrowsTo (rest, after) (rest', after')) :
      SplitGrowsTo (b, (stop, rest) :: after) (b, (stop, rest') :: after')

namespace SplitGrowsTo

variable {b c : Body} {after after' : List (Text × Body)} {es fs : List Event}

theorem line (l : Text) (h : SplitGrowsTo (b, after) (c, after')) :
    SplitGrowsTo (.line l b, after) (.line l c, after') := by
  cases h with
  | unclosed _ grows => exact .unclosed _ (.line l grows)
  | closed _ _ behind => exact .closed _ _ behind

theorem nested (name start : Text) (inner : Body) (stop : Text)
    (h : SplitGrowsTo (b, after) (c, after')) :
    SplitGrowsTo (.nested name start inner (some stop) b, after)
      (.nested name start inner (some stop) c, after') := by
  cases h with
  | unclosed _ grows => exact .unclosed _ (.closed name start inner stop grows)
  | closed _ _ behind => exact .closed _ _ behind

/-- A section that begins in front is open as long as no closing line is left for it. -/
theorem opening (name l : Text) (h : SplitGrowsTo (split es) (split fs)) :
    SplitGrowsTo (split (.opening name l :: es)) (split (.opening name l :: fs)) := by
  rw [split, split]
  generalize split es = x, split fs = y at h
  cases h with
  | @unclosed b c after grows =>
    cases after with
    | nil => exact .unclosed _ (.opened name l none .nil grows)
    | cons a after => exact .unclosed _ (.opened name l (some a.1) a.2 grows)
  | closed b stop behind => exact behind.nested name l b stop

end SplitGrowsTo

/-- **More events make what they are split into grow.** -/
theorem splitGrowsTo_append (es fs : List Event) : SplitGrowsTo (split es) (split (es ++ fs)) := by
  -- By induction on the events: each puts the same item, or the same closing line, in front.
  induction es with
  | nil => exact .unclosed _ (.nil _)
  | cons e es ih =>
    cases e with
    | text l => exact ih.line l
    | stray _ l => exact ih.line l
    | opening name l => exact ih.opening name l
    | closing l => exact .closed .nil l ih

/-- The body that lines are read as grows as more lines are read behind them. -/
theorem growsTo_readAll_append (r : SectionName.Registry) (ls ks : List Text) :
    (ofEvents ((⟨r, []⟩ : Progress).readAll ls).1).GrowsTo
      (ofEvents ((⟨r, []⟩ : Progress).readAll (ls ++ ks)).1) := by
  let es := ((⟨r, []⟩ : Progress).readAll ls).1
  obtain ⟨fs, hfs⟩ : ∃ fs, ((⟨r, []⟩ : Progress).readAll (ls ++ ks)).1 = es ++ fs :=
    ⟨_, by rw [Progress.readAll_append]⟩
  have hgrows := splitGrowsTo_append es fs
  have hnone : (split es).2 = [] := (fits_readAll ⟨r, []⟩ ls).after_eq_nil
  rw [hfs, ofEvents, ofEvents]
  -- With no section open at first, no closing line is left over.
  generalize split es = x, split (es ++ fs) = y at hgrows hnone
  cases hgrows with
  | unclosed _ grows => exact grows
  | closed => exact absurd hnone (List.cons_ne_nil _ _)

end Body

/-! ## Longer texts -/

namespace Document

variable {t : Text}

/-- **A page grows as its text goes on**: its header may only get longer as long as there are no
sections, and its body grows. -/
theorem growsTo_ofText_append (ht : t.IsEnded) (u : Text) :
    (ofText t).header <+: (ofText (t ++ u)).header ∧
      ((ofText t).body ≠ .nil → (ofText (t ++ u)).header = (ofText t).header) ∧
      (ofText t).body.GrowsTo (ofText (t ++ u)).body := by
  rw [ofText_eq, ofText_eq, ht.lines_append, List.takeWhile_append, List.dropWhile_append]
  by_cases hnone : (Text.lines t).dropWhile (fun l => !endsHeader l) = []
  -- No line of the text so far begins a section: all of it is header.
  · have hall : (Text.lines t).takeWhile (fun l => !endsHeader l) = Text.lines t := by
      simpa [hnone] using List.takeWhile_append_dropWhile (p := fun l => !endsHeader l)
        (l := Text.lines t)
    rw [hnone, hall, if_pos rfl, List.flatten_append]
    exact ⟨List.prefix_append .., fun hne => absurd rfl hne, .nil _⟩
  -- The header ends where it did, and what goes on is the body.
  · have hshort : ((Text.lines t).takeWhile fun l => !endsHeader l).length ≠
        (Text.lines t).length := by
      intro hlen
      have hsplit := congrArg List.length
        (List.takeWhile_append_dropWhile (p := fun l => !endsHeader l) (l := Text.lines t))
      rw [List.length_append, hlen] at hsplit
      exact hnone (List.length_eq_zero_iff.mp (by omega))
    rw [if_neg hshort, if_neg (by simpa using hnone)]
    exact ⟨List.prefix_rfl, fun _ => rfl, Body.growsTo_readAll_append .empty _ _⟩

theorem body_ne_nil_of_sections_ne_nil {d : Document} (h : d.sections ≠ []) : d.body ≠ .nil := by
  intro hb
  rw [sections, hb] at h
  exact h rfl

/-- The sections right inside one that stays as it is are the same sections. -/
theorem children_eq_of_region_eq {d d' : Document} {i : Nat} {g : Body.Region}
    (hg : d.regions[i]? = some g) (hg' : d'.regions[i]? = some g) :
    d'.children (some i) = d.children (some i) := by
  have hchildren {e : Document} (he : e.regions[i]? = some g) :
      e.children (some i) = g.inner.top (g.above ++ [g.name]) := by
    rw [← Body.map_placed_topRegions, ← childRegions_eq he, childRegions, children,
      ← map_placed_regions, List.map_filterMap]
    simp only [List.getElem?_map]
  rw [hchildren hg, hchildren hg']

/-- **A text that goes on leaves what was read as it was.** With more behind a text that is empty or
ends with a newline, the header has what it had in front, and is the same if there were sections.
The sections that there were keep their numbers, so new ones come behind all of them, and each of
them stands in the section it stood in and has the name, the path, the partial's name and the first
marker it had. Own lines are only added behind those that there were, for the page as for every
section. A section that had its end marker is the same, and so is everything inside it, with the
numbers that it had. -/
theorem ofText_append_keeps (t u : Text) (ht : t.IsEnded) :
    (ofText t).header <+: (ofText (t ++ u)).header ∧
      ((ofText t).sections ≠ [] → (ofText (t ++ u)).header = (ofText t).header) ∧
      (ofText t).body.lines <+: (ofText (t ++ u)).body.lines ∧
      (ofText t).body.parents <+: (ofText (t ++ u)).body.parents ∧
      ∀ (i : Nat) (s : PlacedSection), (ofText t).sections[i]? = some s →
        ∃ s', (ofText (t ++ u)).sections[i]? = some s' ∧
          s'.name = s.name ∧ s'.above = s.above ∧ s'.depth = s.depth ∧
          s'.fullPath = s.fullPath ∧ s'.partialName = s.partialName ∧
          s'.startComment = s.startComment ∧ s.content <+: s'.content ∧ s.below <+: s'.below ∧
          (s.endComment ≠ none → s' = s ∧
            (ofText (t ++ u)).regions[i]? = (ofText t).regions[i]? ∧
            (ofText (t ++ u)).children (some i) = (ofText t).children (some i) ∧
            ∀ j, (ofText (t ++ u)).Encloses i j ↔ (ofText t).Encloses i j) := by
  obtain ⟨hheader, hsame, hgrows⟩ := growsTo_ofText_append ht u
  refine ⟨hheader, fun hs => hsame (body_ne_nil_of_sections_ne_nil hs), hgrows.lines_isPrefix,
    hgrows.parentsFrom_isPrefix none 0, fun i s hs => ?_⟩
  -- Every section of the shorter text is one of the longer text, grown perhaps.
  obtain ⟨g, hg, rfl⟩ := Body.exists_region hs
  obtain ⟨g', hg', hgg'⟩ := hgrows.exists_region hg
  obtain ⟨hname, habove, hstart⟩ := hgg'.names_eq
  have hpath : g'.placed.fullPath = g.placed.fullPath := by
    show SectionPath.join (g'.above ++ [g'.name]) = SectionPath.join (g.above ++ [g.name])
    rw [hname, habove]
  refine ⟨g'.placed, Body.getElem?_place hg', hname, habove, congrArg List.length habove, hpath,
    congrArg SectionPath.partialName hpath, congrArg some hstart, hgg'.lines_isPrefix,
    hgg'.below_isPrefix, fun hstop => ?_⟩
  obtain rfl := hgg'.eq_of_stop_ne_none hstop
  refine ⟨rfl, hg'.trans hg.symm, children_eq_of_region_eq hg hg', fun j => ?_⟩
  rw [encloses_iff hg, encloses_iff hg']

/-- A text with an open section that holds a closed one. -/
def halfPage : Text :=
  "<p>\n<!-- begin: a -->\n1\n<!-- begin: b -->\n2\n<!-- end: b -->\n".toList

/-- What may come behind it: a line, an end marker that ends nothing, and a section of a name that
was given before. -/
def otherHalf : Text := "3\n<!-- end: b -->\n<!-- begin: a -->\n<!-- end: a -->\n".toList

/-- The closed section of that text. -/
def closedSection : PlacedSection where
  name := "b".toList
  content := ["2\n".toList]
  startComment := some "<!-- begin: b -->\n".toList
  endComment := some "<!-- end: b -->\n".toList
  above := ["a".toList]
  below := []

theorem sections_halfPage : (ofText halfPage).sections[1]? = some closedSection := by
  decide +kernel

/-- The closed section stays as it is when the text goes on. -/
theorem keeps_closedSection :
    halfPage.IsEnded ∧ (ofText halfPage).sections[1]? = some closedSection ∧
      closedSection.endComment ≠ none ∧
      (ofText (halfPage ++ otherHalf)).sections[1]? = some closedSection := by
  have hended : halfPage.IsEnded := .inr (by decide)
  obtain ⟨-, -, -, -, hkeeps⟩ := ofText_append_keeps halfPage otherHalf hended
  obtain ⟨s, hs, -, -, -, -, -, -, -, -, hclosed⟩ := hkeeps 1 closedSection sections_halfPage
  obtain ⟨rfl, -⟩ := hclosed (by decide)
  exact ⟨hended, sections_halfPage, by decide, hs⟩

end Document

end PagePartials
