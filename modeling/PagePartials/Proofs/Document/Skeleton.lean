import PagePartials.Proofs.Document.Page

/-!
# Pages without their lines

A line that carries no marker goes to the innermost open section and changes nothing else: neither
which sections are open nor which names were given. So the sections of a page, with their names,
their markers and the way they stand in each other, can be had from the lines with markers alone,
and two texts that have these lines in common have the same sections but for the own lines.

## Main definitions

* `markerLines ls`: the lines of `ls` with a marker
* `Event.isText e`: whether `e` is a line without a marker
* `Body.skeleton b`: the sections of `b` without any own lines
* `PlacedSection.bare s`: the section `s` without its own lines

## Main results

* `Progress.readAll_markerLines`: lines without a marker change nothing that reading remembers
* `Body.skeleton_readAll_markerLines`: nor do they change the sections
* `Document.skeleton_ofText`: the sections of a page, from the lines with markers alone
* `Document.skeleton_eq_of_markerLines_eq`: texts with the same marker lines have the same sections
-/

namespace PagePartials

open SectionName (Registry)

/-! ## Lines with a marker -/

/-- The lines among the given ones that carry a marker. -/
def markerLines (ls : List Text) : List Text := ls.filter fun l => (Marker.ofLine? l).isSome

section

variable {l : Text} {ls : List Text}

theorem markerLines_cons_of_none (h : Marker.ofLine? l = none) :
    markerLines (l :: ls) = markerLines ls := by
  simp [markerLines, h]

theorem markerLines_cons_of_ne_none (h : Marker.ofLine? l ≠ none) :
    markerLines (l :: ls) = l :: markerLines ls := by
  simp [markerLines, Option.isSome_iff_ne_none.mpr h]

theorem ofLine?_ne_none_of_endsHeader (h : endsHeader l = true) : Marker.ofLine? l ≠ none := by
  obtain ⟨⟨n, hn⟩, -⟩ := endsHeader_iff.mp h
  simp [hn]

/-- The header ends at the same marker line, whatever other lines there are. -/
theorem dropWhile_markerLines (ls : List Text) :
    (markerLines ls).dropWhile (fun l => !endsHeader l) =
      markerLines (ls.dropWhile fun l => !endsHeader l) := by
  induction ls with
  | nil => rfl
  | cons l ls ih =>
    by_cases hend : endsHeader l = true
    · rw [List.dropWhile_cons_of_neg (by simp [hend]),
        markerLines_cons_of_ne_none (ofLine?_ne_none_of_endsHeader hend),
        List.dropWhile_cons_of_neg (by simp [hend])]
    · rw [List.dropWhile_cons_of_pos (by simp [hend]), ← ih]
      by_cases hm : Marker.ofLine? l = none
      · rw [markerLines_cons_of_none hm]
      · rw [markerLines_cons_of_ne_none hm, List.dropWhile_cons_of_pos (by simp [hend])]

end

/-! ## Reading without the other lines -/

/-- Whether the event is a line without a marker. -/
def Event.isText : Event → Bool
  | text _ => true
  | _ => false

namespace Progress

variable {l : Text}

theorem read_of_none (p : Progress) (h : Marker.ofLine? l = none) : p.read l = (.text l, p) := by
  simp [read, h]

theorem isText_read_of_ne_none (p : Progress) (h : Marker.ofLine? l ≠ none) :
    (p.read l).1.isText = false := by
  unfold read
  split
  next hm => exact absurd hm h
  next => rfl
  next => split <;> rfl

/-- Lines without a marker change nothing that reading remembers, and nothing that the other lines
do. -/
theorem readAll_markerLines (p : Progress) (ls : List Text) :
    p.readAll (markerLines ls) =
      ((p.readAll ls).1.filter fun e => !e.isText, (p.readAll ls).2) := by
  induction ls generalizing p with
  | nil => rfl
  | cons l ls ih =>
    by_cases hm : Marker.ofLine? l = none
    · rw [markerLines_cons_of_none hm, ih, readAll_cons, read_of_none p hm]
      rfl
    · rw [markerLines_cons_of_ne_none hm, readAll_cons, readAll_cons, ih,
        List.filter_cons_of_pos (by simp [isText_read_of_ne_none p hm])]

end Progress

/-! ## Bodies without own lines -/

namespace Body

/-- The sections of a body, with all own lines left out. -/
def skeleton : Body → Body
  | nil => nil
  | line _ rest => rest.skeleton
  | nested name start inner stop rest => nested name start inner.skeleton stop rest.skeleton

/-- What events are split into, with all own lines left out. -/
def splitSkeleton (x : Body × List (Text × Body)) : Body × List (Text × Body) :=
  (x.1.skeleton, x.2.map fun a => (a.1, a.2.skeleton))

theorem splitSkeleton_opening (name l : Text) {es fs : List Event}
    (h : splitSkeleton (split es) = splitSkeleton (split fs)) :
    splitSkeleton (split (.opening name l :: es)) =
      splitSkeleton (split (.opening name l :: fs)) := by
  rw [split, split]
  generalize split es = x, split fs = y at h
  obtain ⟨b, after⟩ := x
  obtain ⟨c, after'⟩ := y
  obtain ⟨hb, hafter⟩ := Prod.mk.inj h
  -- Both sides have as many closing lines left, and the first one is the same.
  cases after with
  | nil =>
    obtain rfl : after' = [] := by simpa using hafter
    simpa [splitSkeleton, skeleton] using hb
  | cons a after =>
    cases after' with
    | nil => simp at hafter
    | cons a' after' =>
      obtain ⟨ha, hafter⟩ := List.cons.inj hafter
      obtain ⟨hstop, hrest⟩ := Prod.mk.inj ha
      simp only [splitSkeleton, skeleton] at hb hstop hrest ⊢
      rw [hb, hstop, hrest, hafter]

/-- Lines without a marker are none of the sections. -/
theorem splitSkeleton_filter (es : List Event) :
    splitSkeleton (split (es.filter fun e => !e.isText)) = splitSkeleton (split es) := by
  induction es with
  | nil => rfl
  | cons e es ih =>
    cases e with
    | text l => exact ih
    | stray _ l => exact ih
    | opening name l => exact splitSkeleton_opening name l ih
    | closing l =>
      obtain ⟨hb, hafter⟩ := Prod.mk.inj ih
      simp only [Event.isText, split, splitSkeleton, skeleton, List.filter_cons_of_pos,
        Bool.not_false, List.map_cons] at hb hafter ⊢
      rw [hb, hafter]

/-- The sections that lines are read as, from the lines with markers alone. -/
theorem skeleton_readAll_markerLines (r : Registry) (ls : List Text) :
    (ofEvents ((⟨r, []⟩ : Progress).readAll (markerLines ls)).1).skeleton =
      (ofEvents ((⟨r, []⟩ : Progress).readAll ls).1).skeleton := by
  rw [Progress.readAll_markerLines]
  exact congrArg Prod.fst (splitSkeleton_filter _)

/-! ## Sections without own lines -/

theorem count_skeleton (b : Body) : b.skeleton.count = b.count := by
  induction b with
  | nil => rfl
  | line _ rest ih => exact ih
  | nested _ _ inner _ rest ih₁ ih₂ => rw [skeleton, count, count, ih₁, ih₂]

theorem names_skeleton (b : Body) : b.skeleton.names = b.names := by
  induction b with
  | nil => rfl
  | line _ rest ih => exact ih
  | nested _ _ _ _ rest _ ih => rw [skeleton, names, names, ih]

theorem lines_skeleton (b : Body) : b.skeleton.lines = [] := by
  induction b with
  | nil => rfl
  | line _ rest ih => exact ih
  | nested _ _ _ _ rest _ ih => exact ih

theorem parentsFrom_skeleton (b : Body) (parent : Option Nat) (next : Nat) :
    b.skeleton.parentsFrom parent next = b.parentsFrom parent next := by
  induction b generalizing parent next with
  | nil => rfl
  | line _ rest ih => exact ih parent next
  | nested _ _ inner _ rest ih₁ ih₂ =>
    rw [skeleton, parentsFrom, parentsFrom, ih₁, ih₂, count_skeleton]

end Body

/-- The section with its own lines left out. -/
def PlacedSection.bare (s : PlacedSection) : PlacedSection := { s with content := [] }

theorem Body.place_skeleton (b : Body) (above : List Text) :
    b.skeleton.place above = (b.place above).map PlacedSection.bare := by
  induction b generalizing above with
  | nil => rfl
  | line _ rest ih => exact ih above
  | nested name start inner stop rest ih₁ ih₂ =>
    have hone : placeOne above name start inner.skeleton stop =
        (placeOne above name start inner stop).bare := by
      rw [placeOne, lines_skeleton, names_skeleton]
      rfl
    rw [skeleton, place, place, hone, ih₁, ih₂, List.map_cons, List.map_append]

/-! ## Texts with the same marker lines -/

namespace Document

/-- The sections of a page, from the lines with markers alone. -/
theorem skeleton_ofText (t : Text) :
    (ofText t).body.skeleton =
      (Body.ofEvents ((⟨.empty, []⟩ : Progress).readAll
        ((markerLines (Text.lines t)).dropWhile fun l => !endsHeader l)).1).skeleton := by
  rw [dropWhile_markerLines, Body.skeleton_readAll_markerLines]
  rfl

/-- **The sections of a page depend on its marker lines only.** Two texts with the same lines that
carry markers, in the same order, have the same sections but for the own lines: as many, each in the
section of the same number, with the same name, the same names around it and right inside, and so
with the same depth, path and name of its partial, and with the same markers. -/
theorem skeleton_eq_of_markerLines_eq (t u : Text)
    (h : markerLines (Text.lines t) = markerLines (Text.lines u)) :
    (ofText t).body.skeleton = (ofText u).body.skeleton ∧
      (ofText t).body.parents = (ofText u).body.parents ∧
      (ofText t).sections.map PlacedSection.bare = (ofText u).sections.map PlacedSection.bare ∧
      ∀ (i : Nat) (s s' : PlacedSection), (ofText t).sections[i]? = some s →
        (ofText u).sections[i]? = some s' →
        s.name = s'.name ∧ s.above = s'.above ∧ s.below = s'.below ∧ s.depth = s'.depth ∧
          s.fullPath = s'.fullPath ∧ s.partialName = s'.partialName ∧
          s.startComment = s'.startComment ∧ s.endComment = s'.endComment := by
  have hskeleton : (ofText t).body.skeleton = (ofText u).body.skeleton := by
    rw [skeleton_ofText, skeleton_ofText, h]
  have hbare : (ofText t).sections.map PlacedSection.bare =
      (ofText u).sections.map PlacedSection.bare := by
    rw [sections, sections, ← Body.place_skeleton, ← Body.place_skeleton, hskeleton]
  refine ⟨hskeleton, ?_, hbare, fun i s s' hs hs' => ?_⟩
  · rw [Body.parents, Body.parents, ← Body.parentsFrom_skeleton, hskeleton,
      Body.parentsFrom_skeleton]
  -- All but the own lines of a section is what it is without them.
  · have hsame : s.bare = s'.bare := by
      have hi := congrArg (·[i]?) hbare
      simp only [List.getElem?_map, hs, hs', Option.map_some] at hi
      exact Option.some.inj hi
    exact ⟨congrArg (·.name) hsame, congrArg (·.above) hsame, congrArg (·.below) hsame,
      congrArg (·.depth) hsame, congrArg (·.fullPath) hsame, congrArg (·.partialName) hsame,
      congrArg (·.startComment) hsame, congrArg (·.endComment) hsame⟩

/-- A text with a product line, a section inside another one, lines in both, and an end marker that
ends neither. -/
def fullPage : Text :=
  ("<!-- Product: x -->\n<!-- a -->\n1\n<!-- a -->\n2\n<!-- end: b -->\n<!-- end: a -->\n" ++
    "3\n").toList

/-- The same marker lines, with other lines around them. -/
def thinPage : Text :=
  ("<p>\n<!-- Product: x -->\n<!-- a -->\n<!-- a -->\n\n<!-- append -->\n<!-- end: b -->\n" ++
    "<!-- end: a -->\n").toList

theorem markerLines_fullPage :
    markerLines (Text.lines fullPage) = markerLines (Text.lines thinPage) := by
  decide +kernel

/-- The two texts have the same sections but for the own lines. -/
theorem skeleton_fullPage :
    markerLines (Text.lines fullPage) = markerLines (Text.lines thinPage) ∧
      (ofText fullPage).body.skeleton = (ofText thinPage).body.skeleton := by
  obtain ⟨hskeleton, -⟩ := skeleton_eq_of_markerLines_eq fullPage thinPage markerLines_fullPage
  exact ⟨markerLines_fullPage, hskeleton⟩

end Document

end PagePartials
