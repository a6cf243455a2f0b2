import PagePartials.Proofs.Document.Page

/-!
# Nothing is lost in reading

A section lists its own lines and the sections right inside it, each in the order of the text, but
not how the two are mixed. Here that order is forgotten, and it is shown that the text can be had
back by mixing the lists again: for the page and for every section in it there is a way to
interleave own lines and sections that gives exactly the text that was read. The header, the
markers and the own lines are then placed where they belong.

## Main definitions

* `Forest`: sections with their own lines and the sections inside them
* `Body.forest b`: the sections of `b`
* `Forest.Spells ls f t`: interleaving the lines `ls` with the sections `f` can give the text `t`

## Main results

* `Forest.spells_forest`: a body is an interleaving of its own lines and its sections
* `Document.ofText_conserves`: reading loses nothing, repeats nothing and moves nothing, and puts
  every line where its marker says
-/

namespace PagePartials

open SectionName (Registry normalize)

/-- Sections in order, each with its name, its markers, its own lines and the sections inside it.
How own lines and sections are mixed is left open. -/
inductive Forest where
  | nil
  | node (name start : Text) (content : List Text) (inner : Forest) (stop : Option Text)
      (rest : Forest)
  deriving DecidableEq, Repr

namespace Forest

/-- The names of the outermost sections. -/
def names : Forest → List Text
  | nil => []
  | node name _ _ _ _ rest => name :: rest.names

/-- All sections where they stand, each before the sections inside it. -/
def place (above : List Text) : Forest → List PlacedSection
  | nil => []
  | node name start content inner stop rest =>
    { name := name
      content := content
      startComment := some start
      endComment := stop
      above := above
      below := inner.names.map fun n => SectionPath.join (above ++ [name, n]) } ::
      (inner.place (above ++ [name]) ++ rest.place above)

/-- `Spells ls f t`: the lines `ls` and the sections `f`, interleaved without a change to the order
of either, give the text `t`, where each section stands for its first marker, an interleaving of its
own lines with the sections inside it, and its last marker if it has one. -/
inductive Spells : List Text → Forest → Text → Prop
  | nil : Spells [] nil []
  | line {l t : Text} {ls : List Text} {f : Forest} (after : Spells ls f t) :
      Spells (l :: ls) f (l ++ t)
  | node {name start u t : Text} {content ls : List Text} {inner rest : Forest}
      {stop : Option Text} (inside : Spells content inner u) (after : Spells ls rest t) :
      Spells ls (node name start content inner stop rest) (start ++ u ++ stop.getD [] ++ t)

end Forest

namespace Body

/-- The sections of a body, with the order among own lines and sections forgotten. -/
def forest : Body → Forest
  | nil => .nil
  | line _ rest => rest.forest
  | nested name start inner stop rest => .node name start inner.lines inner.forest stop rest.forest

theorem names_forest (b : Body) : b.forest.names = b.names := by
  induction b with
  | nil => rfl
  | line _ rest ih => exact ih
  | nested name start inner stop rest _ ih => rw [forest, Forest.names, names, ih]

/-- The sections of a body are those of its forest. -/
theorem place_forest (b : Body) (above : List Text) : b.forest.place above = b.place above := by
  induction b generalizing above with
  | nil => rfl
  | line _ rest ih => exact ih above
  | nested name start inner stop rest ih₁ ih₂ =>
    simp [forest, Forest.place, place, placeOne, names_forest, ih₁, ih₂]

/-- A body is an interleaving of its own lines and its sections. -/
theorem spells_forest (b : Body) : b.forest.Spells b.lines b.flatten := by
  induction b with
  | nil => exact .nil
  | line l rest ih => exact .line ih
  | nested name start inner stop rest ih₁ ih₂ => exact .node ih₁ ih₂

end Body

namespace Document

/-- **Reading loses nothing, repeats nothing and moves nothing.** The text is the header followed by
an interleaving of the lines outside of all sections with the sections, and so on inside each of
them. The header holds the lines up to the first one that begins a section. Each section starts
with a begin marker and ends, if it does, with an end marker; no line that begins a section is a
section's own line or one of the page, and no line that would have ended a section is its own. -/
theorem ofText_conserves (t : Text) :
    (∃ u, (ofText t).body.forest.Spells (ofText t).body.lines u ∧ (ofText t).header ++ u = t) ∧
    (ofText t).body.forest.place [] = (ofText t).sections ∧
    (∃ head tail, Text.lines t = head ++ tail ∧ (ofText t).header = head.flatten ∧
      (∀ l ∈ head, ¬ BeginsSections l) ∧ ∀ l ∈ tail.head?, BeginsSections l) ∧
    (∀ s ∈ (ofText t).sections,
      (∃ start n, s.startComment = some start ∧ Marker.ofLine? start = some (.begins n)) ∧
      (∀ stop ∈ s.endComment, ∃ n, Marker.ofLine? stop = some (.ends n)) ∧
      ∀ l ∈ s.content, (∀ n, Marker.ofLine? l ≠ some (.begins n)) ∧
        ∀ n, Marker.ofLine? l = some (.ends n) → ¬ normalize n <+: s.name) ∧
    ∀ l ∈ (ofText t).body.lines, ∀ n, Marker.ofLine? l ≠ some (.begins n) := by
  obtain ⟨head, hhead, hlines, hwf⟩ := wellFormed_ofText t
  obtain ⟨r, hm⟩ := hwf.marked
  refine ⟨?_, Body.place_forest _ _, ?_, fun s hs => ⟨?_, ?_, fun l hl => ⟨?_, ?_⟩⟩,
    fun l hl => (hm.isOwnLine hl).ofLine?_ne_begins⟩
  -- Header and body are together the lines of the text.
  · refine ⟨(ofText t).body.flatten, Body.spells_forest _, ?_⟩
    rw [hhead, ← Body.flatten_allLines, ← List.flatten_append, ← hlines, Text.flatten_lines]
  · exact ⟨head, _, hlines, hhead, hwf.header, hwf.first⟩
  -- Markers and own lines are where the grammar of bodies has them.
  · obtain ⟨start, n, -, hs, hn, -⟩ := (hm.isMarked hs).begins
    exact ⟨start, n, hs, hn⟩
  · intro stop hstop
    obtain ⟨n, hn, -⟩ := (hm.isMarked hs).ends stop hstop
    exact ⟨n, hn⟩
  · exact ((hm.isMarked hs).own l hl).ofLine?_ne_begins
  · exact fun n hn => ((hm.isMarked hs).own l hl).not_prefix_name hn

end Document

end PagePartials
