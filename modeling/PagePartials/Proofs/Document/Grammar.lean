import PagePartials.Document.Event
import Mathlib.Data.List.Basic

/-!
# The grammar of bodies

Which bodies a page can have, said without reading: a section begins with a begin marker and has
the name that the registry gives for it, its own lines close nothing, the line that ends it names
it, and a section without such a line is the last thing in the page. Reading lines gives a body of
this grammar, whatever the lines are, and gives every body of the grammar back from its lines.

## Main definitions

* `IsOwnLine owner l`, `Closes name l`: what line `l` is to the innermost open section
* `Body.WellMarked owner atEnd r b r'`: the grammar
* `Body.allLines b`: the lines of `b` in the order of the text, markers included
* `Body.events b`: what reading finds in those lines

## Main results

* `Body.wellMarked_readAll`: reading gives a body of the grammar
* `Body.allLines_readAll`: that body has the lines that were read
* `Body.WellMarked.ofEvents_readAll`: the lines of a body of the grammar are read as that body
-/

namespace PagePartials

open SectionName (Registry normalize)

/-! ## Lines inside a section -/

/-- Whether the line belongs to the text of the section called `owner`, or of the page where there
is none: it carries no marker, or an end marker that does not name the section. -/
def IsOwnLine (owner : Option Text) (line : Text) : Prop :=
  match Marker.ofLine? line with
  | none => True
  | some (.begins _) => False
  | some (.ends n) => ∀ name ∈ owner, ¬ normalize n <+: name

/-- Whether the line ends the section of the given name. -/
def Closes (name line : Text) : Prop :=
  ∃ n, Marker.ofLine? line = some (.ends n) ∧ normalize n <+: name

namespace IsOwnLine

variable {owner : Option Text} {line n : Text}

theorem of_none (hm : Marker.ofLine? line = none) : IsOwnLine owner line := by
  simp [IsOwnLine, hm]

theorem of_ends (hm : Marker.ofLine? line = some (.ends n))
    (hn : ∀ name ∈ owner, ¬ normalize n <+: name) : IsOwnLine owner line := by
  simpa [IsOwnLine, hm] using hn

theorem ofLine?_ne_begins (h : IsOwnLine owner line) (n : Text) :
    Marker.ofLine? line ≠ some (.begins n) := by
  intro hm
  simp [IsOwnLine, hm] at h

theorem not_prefix_name {name : Text} (h : IsOwnLine (some name) line)
    (hm : Marker.ofLine? line = some (.ends n)) : ¬ normalize n <+: name := by
  simpa [IsOwnLine, hm] using h

end IsOwnLine

/-- A section with its markers and lines in place: it begins with a begin marker, has a name given
for the name in that marker, ends with a line that names it or not at all, and none of its own
lines begins a section or could have ended it. -/
structure Section.IsMarked (s : Section) : Prop where
  begins : ∃ start n k, s.startComment = some start ∧ Marker.ofLine? start = some (.begins n) ∧
    s.name = SectionName.numbered (normalize n) k ∧ 1 ≤ k
  ends : ∀ stop ∈ s.endComment, Closes s.name stop
  own : ∀ l ∈ s.content, IsOwnLine (some s.name) l

/-! ## Bodies -/

namespace Body

/-- `WellMarked owner atEnd r b r'`: `b` can stand inside the section called `owner`, or in the page
where there is none, with the names given from the registry `r` on, in the order of the text,
which leaves `r'`. Only where the body reaches to the end of the page, `atEnd`, may it have a
section without an end marker, and then as its last item. -/
inductive WellMarked : Option Text → Bool → Registry → Body → Registry → Prop
  | nil {owner : Option Text} {atEnd : Bool} {r : Registry} : WellMarked owner atEnd r nil r
  | line {owner : Option Text} {atEnd : Bool} {r r' : Registry} {l : Text} {rest : Body}
      (own : IsOwnLine owner l) (after : WellMarked owner atEnd r rest r') :
      WellMarked owner atEnd r (line l rest) r'
  | closed {owner : Option Text} {atEnd : Bool} {r r₁ r₂ : Registry} {n start stop : Text}
      {inner rest : Body} (begins : Marker.ofLine? start = some (.begins n))
      (inside : WellMarked (some (r.assign n).1) false (r.assign n).2 inner r₁)
      (ends : Closes (r.assign n).1 stop) (after : WellMarked owner atEnd r₁ rest r₂) :
      WellMarked owner atEnd r (nested (r.assign n).1 start inner (some stop) rest) r₂
  | unclosed {owner : Option Text} {r r₁ : Registry} {n start : Text} {inner : Body}
      (begins : Marker.ofLine? start = some (.begins n))
      (inside : WellMarked (some (r.assign n).1) true (r.assign n).2 inner r₁) :
      WellMarked owner true r (nested (r.assign n).1 start inner none nil) r₁

/-- The lines of a body in the order of the text, markers included. -/
def allLines : Body → List Text
  | nil => []
  | line l rest => l :: rest.allLines
  | nested _ start inner stop rest => start :: (inner.allLines ++ (stop.toList ++ rest.allLines))

theorem flatten_allLines (b : Body) : b.allLines.flatten = b.flatten := by
  induction b with
  | nil => rfl
  | line l rest ih => simp [allLines, flatten, ih]
  | nested name start inner stop rest ih₁ ih₂ =>
    cases stop <;> simp [allLines, flatten, ih₁, ih₂]

theorem WellMarked.isOwnLine {owner : Option Text} {atEnd : Bool} {r r' : Registry} {b : Body}
    (h : b.WellMarked owner atEnd r r') {l : Text} (hl : l ∈ b.lines) : IsOwnLine owner l := by
  induction h with
  | nil => simp [lines] at hl
  | line own _ ih =>
    rcases List.mem_cons.mp hl with rfl | hl
    · exact own
    · exact ih hl
  | closed _ _ _ _ _ ih => exact ih hl
  | unclosed => simp [lines] at hl

/-- The sections of a body of the grammar are marked as they should be. -/
theorem WellMarked.isMarked {owner : Option Text} {atEnd : Bool} {r r' : Registry} {b : Body}
    (h : b.WellMarked owner atEnd r r') {above : List Text} {s : PlacedSection}
    (hs : s ∈ b.place above) : s.IsMarked := by
  induction h generalizing above with
  | nil => simp [place] at hs
  | line _ _ ih => exact ih hs
  | @closed _ _ r _ _ n start _ _ _ begins inside ends _ ihi iha =>
    simp only [place, List.mem_cons, List.mem_append] at hs
    rcases hs with rfl | hs | hs
    · exact ⟨⟨start, n, _, rfl, begins, rfl, Nat.le_add_left ..⟩, by simpa [placeOne] using ends,
        fun l hl => inside.isOwnLine hl⟩
    · exact ihi hs
    · exact iha hs
  | @unclosed _ r _ n start _ begins inside ih =>
    simp only [place, List.append_nil, List.mem_cons] at hs
    rcases hs with rfl | hs
    · exact ⟨⟨start, n, _, rfl, begins, rfl, Nat.le_add_left ..⟩, by simp [placeOne],
        fun l hl => inside.isOwnLine hl⟩
    · exact ih hs

/-! ## Reading the lines of a body -/

/-- The names of the sections of the body without an end marker, innermost first. -/
def openChain : Body → List Text
  | nil => []
  | line _ rest => rest.openChain
  | nested name _ inner none _ => inner.openChain ++ [name]
  | nested _ _ _ (some _) rest => rest.openChain

theorem WellMarked.openChain_eq_nil {owner : Option Text} {atEnd : Bool} {r r' : Registry}
    {b : Body} (h : b.WellMarked owner atEnd r r') (he : atEnd = false) : b.openChain = [] := by
  induction h with
  | nil => rfl
  | line _ _ ih => exact ih he
  | closed _ _ _ _ _ ih => exact ih he
  | unclosed => exact absurd he (by decide)

end Body

/-- What an own line does: it is text, and worth a notice if it carries an end marker. -/
def Event.ofOwnLine (l : Text) : Event :=
  match Marker.ofLine? l with
  | some (.ends n) => .stray n l
  | _ => .text l

namespace Progress

variable {r : Registry} {opened : List Text} {l n name : Text}

theorem read_of_isOwnLine (p : Progress) (h : IsOwnLine p.opened.head? l) :
    p.read l = (.ofOwnLine l, p) := by
  unfold read Event.ofOwnLine
  unfold IsOwnLine at h
  split at h
  next hm => simp [hm]
  next => exact h.elim
  next n hm =>
    have hc : p.closedBy n = false := by
      unfold closedBy
      split
      next => rfl
      next name _ ho => simpa [ho, ← Bool.not_eq_true] using h
    simp [hm, hc]

theorem read_of_begins (p : Progress) (h : Marker.ofLine? l = some (.begins n)) :
    p.read l = (.opening (p.registry.assign n).1 l,
      ⟨(p.registry.assign n).2, (p.registry.assign n).1 :: p.opened⟩) := by
  simp [read, h]

theorem read_of_closes (h : Closes name l) :
    (⟨r, name :: opened⟩ : Progress).read l = (.closing l, ⟨r, opened⟩) := by
  obtain ⟨n, hm, hn⟩ := h
  simp [read, hm, closedBy, hn]

/-- A line belongs to the text, begins a section or closes the innermost open one. -/
theorem isOwnLine_or (p : Progress) (l : Text) :
    IsOwnLine p.opened.head? l ∨ (∃ n, Marker.ofLine? l = some (.begins n)) ∨
      ∃ name outer, p.opened = name :: outer ∧ Closes name l := by
  rcases hm : Marker.ofLine? l with _ | n | n
  · exact .inl (.of_none hm)
  · exact .inr (.inl ⟨n, rfl⟩)
  · rcases ho : p.opened with _ | ⟨name, outer⟩
    · exact .inl (.of_ends hm (by simp))
    · by_cases hn : normalize n <+: name
      · exact .inr (.inr ⟨name, outer, rfl, n, hm, hn⟩)
      · exact .inl (.of_ends hm (by simpa using hn))

theorem line_read (p : Progress) (l : Text) : (p.read l).1.line = l := by
  unfold read
  split
  next => rfl
  next => rfl
  next => split <;> rfl

theorem readAll_cons (p : Progress) (l : Text) (ls : List Text) :
    p.readAll (l :: ls) = ((p.read l).1 :: ((p.read l).2.readAll ls).1,
      ((p.read l).2.readAll ls).2) :=
  rfl

theorem map_line_readAll (p : Progress) (ls : List Text) :
    (p.readAll ls).1.map Event.line = ls := by
  induction ls generalizing p with
  | nil => rfl
  | cons l ls ih => simp [readAll, line_read, ih]

theorem readAll_append (p : Progress) (ls ks : List Text) :
    p.readAll (ls ++ ks) = ((p.readAll ls).1 ++ ((p.readAll ls).2.readAll ks).1,
      ((p.readAll ls).2.readAll ks).2) := by
  induction ls generalizing p with
  | nil => rfl
  | cons l ls ih => simp [readAll, ih]

end Progress

namespace Body

/-- What reading finds in the lines of a body. -/
def events : Body → List Event
  | nil => []
  | line l rest => .ofOwnLine l :: rest.events
  | nested name start inner stop rest =>
    .opening name start :: (inner.events ++ (stop.toList.map .closing ++ rest.events))

/-- The lines of a body of the grammar are read as the events of the body. -/
theorem WellMarked.readAll {owner : Option Text} {atEnd : Bool} {r r' : Registry} {b : Body}
    (h : b.WellMarked owner atEnd r r') (opened : List Text) (ho : opened.head? = owner) :
    (⟨r, opened⟩ : Progress).readAll b.allLines = (b.events, ⟨r', b.openChain ++ opened⟩) := by
  -- By induction on the grammar: a section's lines are read with its name on top, and where it ends
  -- the names below are as they were.
  induction h generalizing opened with
  | nil => rfl
  | @line _ _ r _ _ _ own _ ih =>
    subst ho
    simp [allLines, events, openChain, Progress.readAll,
      Progress.read_of_isOwnLine ⟨r, opened⟩ own, ih opened rfl]
  | @closed _ _ r _ _ n _ _ _ _ begins inside ends _ ihi iha =>
    have hi := ihi ((r.assign n).1 :: opened) rfl
    rw [inside.openChain_eq_nil rfl, List.nil_append] at hi
    simp [allLines, events, openChain, Progress.readAll, Progress.read_of_begins _ begins,
      Progress.readAll_append, hi, Progress.read_of_closes ends, iha opened ho]
  | @unclosed _ r _ n _ _ begins _ ih =>
    have hi := ih ((r.assign n).1 :: opened) rfl
    simp [allLines, events, openChain, Progress.readAll, Progress.read_of_begins _ begins, hi]

/-- The items of one body followed by those of another. -/
def append : Body → Body → Body
  | nil, c => c
  | line l rest, c => line l (rest.append c)
  | nested name start inner stop rest, c => nested name start inner stop (rest.append c)

@[simp] theorem append_nil (b : Body) : b.append nil = b := by
  induction b with
  | nil => rfl
  | line l rest ih => rw [append, ih]
  | nested name start inner stop rest _ ih => rw [append, ih]

theorem split_ofOwnLine (l : Text) (es : List Event) :
    split (.ofOwnLine l :: es) = (line l (split es).1, (split es).2) := by
  unfold Event.ofOwnLine
  split <;> rfl

/-- The events of a body, with others behind them unless the body reaches to the end of the page,
are split into the items of that body and what the others are split into. -/
theorem WellMarked.split_append {owner : Option Text} {atEnd : Bool} {r r' : Registry} {b : Body}
    (h : b.WellMarked owner atEnd r r') (es : List Event) (he : atEnd = true → es = []) :
    split (b.events ++ es) = (b.append (split es).1, (split es).2) := by
  -- By induction on the grammar: inside a section what follows begins with its closing line.
  induction h generalizing es with
  | nil => rfl
  | line _ _ ih => rw [events, List.cons_append, split_ofOwnLine, ih es he, append]
  | @closed _ _ _ _ _ _ _ stop _ rest _ _ _ _ ihi iha =>
    have hi := ihi (.closing stop :: (rest.events ++ es)) nofun
    simp [events, split, hi, iha es he, append]
  | unclosed _ _ ih =>
    obtain rfl := he rfl
    have hi := ih [] fun _ => rfl
    simp only [List.append_nil] at hi
    simp [events, split, hi, append]

/-- **The lines of a body of the grammar are read as that body.** -/
theorem WellMarked.ofEvents_readAll {r r' : Registry} {b : Body} (h : b.WellMarked none true r r') :
    ofEvents ((⟨r, []⟩ : Progress).readAll b.allLines).1 = b := by
  have hs := h.split_append [] fun _ => rfl
  simp only [List.append_nil] at hs
  simp [h.readAll [] rfl, ofEvents, hs, split]

/-! ## The body that lines are read as -/

/-- `Fits last r opened (b, after)`: with the sections `opened` open and names given from `r` on,
`b` can stand inside the innermost of them, and each closing line of `after` ends the innermost
section still open, with a body behind it that can stand where that leaves off. Where no closing
line is left the body reaches to the end of the page, and the registry is `last`. -/
inductive Fits (last : Registry) : Registry → List Text → Body × List (Text × Body) → Prop
  | unclosed {r : Registry} {opened : List Text} {b : Body}
      (marked : b.WellMarked opened.head? true r last) : Fits last r opened (b, [])
  | closed {r r₁ : Registry} {name stop : Text} {outer : List Text} {b rest : Body}
      {after : List (Text × Body)} (marked : b.WellMarked (some name) false r r₁)
      (ends : Closes name stop) (behind : Fits last r₁ outer (rest, after)) :
      Fits last r (name :: outer) (b, (stop, rest) :: after)

namespace Fits

variable {last r r₁ : Registry} {opened outer : List Text} {b rest : Body}
  {after : List (Text × Body)} {l n name : Text}

theorem line (own : IsOwnLine opened.head? l) (h : Fits last r opened (b, after)) :
    Fits last r opened (.line l b, after) := by
  cases h with
  | unclosed marked => exact .unclosed (.line own marked)
  | closed marked ends behind => exact .closed (.line own marked) ends behind

theorem closing (ends : Closes name l) (h : Fits last r outer (b, after)) :
    Fits last r (name :: outer) (nil, (l, b) :: after) :=
  .closed .nil ends h

theorem nested {start stop : Text} {inner : Body}
    (begins : Marker.ofLine? start = some (.begins n))
    (inside : inner.WellMarked (some (r.assign n).1) false (r.assign n).2 r₁)
    (ends : Closes (r.assign n).1 stop) (h : Fits last r₁ opened (rest, after)) :
    Fits last r opened (.nested (r.assign n).1 start inner (some stop) rest, after) := by
  cases h with
  | unclosed marked => exact .unclosed (.closed begins inside ends marked)
  | closed marked ends' behind => exact .closed (.closed begins inside ends marked) ends' behind

theorem opening {es : List Event} (begins : Marker.ofLine? l = some (.begins n))
    (h : Fits last (r.assign n).2 ((r.assign n).1 :: opened) (split es)) :
    Fits last r opened (split (.opening (r.assign n).1 l :: es)) := by
  rw [split]
  generalize split es = x at h ⊢
  cases h with
  | unclosed inside => exact .unclosed (.unclosed begins inside)
  | closed inside ends behind => exact behind.nested begins inside ends

/-- With no section open, nothing is left behind a closing line. -/
theorem after_eq_nil (h : Fits last r [] (b, after)) : after = [] := by
  cases h
  rfl

theorem wellMarked (h : Fits last r [] (b, after)) : b.WellMarked none true r last := by
  cases h
  assumption

end Fits

/-- What lines are split into fits the sections that are open before them. -/
theorem fits_readAll (p : Progress) (ls : List Text) :
    Fits (p.readAll ls).2.registry p.registry p.opened (split (p.readAll ls).1) := by
  -- By induction on the lines: each step adds one item, or one closing line, in front.
  induction ls generalizing p with
  | nil => exact .unclosed .nil
  | cons l ls ih =>
    rcases p.isOwnLine_or l with own | ⟨n, begins⟩ | ⟨name, outer, ho, ends⟩
    · simp only [Progress.readAll, p.read_of_isOwnLine own, split_ofOwnLine]
      exact (ih p).line own
    · simp only [Progress.readAll, p.read_of_begins begins]
      exact (ih _).opening begins
    · obtain ⟨r, opened⟩ := p
      obtain rfl : opened = name :: outer := ho
      simp only [Progress.readAll, Progress.read_of_closes ends]
      exact (ih _).closing ends

/-- **Reading gives a body of the grammar**, whatever the lines are. -/
theorem wellMarked_readAll (r : Registry) (ls : List Text) :
    (ofEvents ((⟨r, []⟩ : Progress).readAll ls).1).WellMarked none true r
      ((⟨r, []⟩ : Progress).readAll ls).2.registry :=
  (fits_readAll ⟨r, []⟩ ls).wellMarked

/-- The lines of what events are split into, closing lines included. -/
theorem allLines_split (es : List Event) :
    (split es).1.allLines ++ (split es).2.flatMap (fun a => a.1 :: a.2.allLines) =
      es.map Event.line := by
  -- Only an opening event moves anything: the first closing line behind it becomes the end of its
  -- section.
  induction es with
  | nil => rfl
  | cons e es ih =>
    cases e with
    | text l => simp [split, allLines, Event.line, ← ih]
    | stray n l => simp [split, allLines, Event.line, ← ih]
    | closing l => simp [split, allLines, Event.line, ← ih]
    | opening name l =>
      rw [split]
      cases hs : split es with
      | mk b after => cases after <;> simp [allLines, Event.line, ← ih, hs]

/-- **The body read has the lines that were read**, in their order. -/
theorem allLines_readAll (r : Registry) (ls : List Text) :
    (ofEvents ((⟨r, []⟩ : Progress).readAll ls).1).allLines = ls := by
  have hs := allLines_split ((⟨r, []⟩ : Progress).readAll ls).1
  rw [(fits_readAll ⟨r, []⟩ ls).after_eq_nil, Progress.map_line_readAll] at hs
  simpa [ofEvents] using hs

end Body

end PagePartials
