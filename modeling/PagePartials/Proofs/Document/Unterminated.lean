import PagePartials.Proofs.Document.Slices
import Mathlib.Data.List.Chain

/-!
# Sections without an end marker

The sections that are open when a text ends have no end marker, and no others lack one. They stand
one inside the other: the first of them is the last of the outermost sections, and each of the
others is the last section right inside the one before it. So what encloses a section without an
end marker has none either. While the text is read, end markers close only sections that begin
markers have opened, never the page itself.

## Main definitions

* `Body.childNumbersFrom`, `Body.openNumbersFrom`: the numbers of sections within a body
* `Document.openNumbers d`: the numbers of the sections of `d` without an end marker
* `Notice.isUnterminated n`: whether `n` is about such a section
* `Event.begins e`, `Event.ends e`: whether `e` begins or ends a section

## Main results

* `Document.isChain_openNumbers`: sections without an end marker form one chain of last children
* `Document.mem_openNumbers_of_encloses`: what encloses such a section is one as well
* `Reading.filter_isUnterminated_notices`: there is one notice for each of them, from the outermost
  on
* `Progress.closings_le_openings`: the page itself is never closed
-/

namespace PagePartials

open SectionName (Registry)

/-! ## The chain of open sections -/

namespace Body

variable {owner : Option Text} {atEnd : Bool} {r r' : Registry} {b : Body} {parent : Option Nat}
  {next : Nat}

/-- The numbers of the sections of a body that stand right inside section `p`, where the body stands
in `parent` and its sections are numbered from `next` on. -/
def childNumbersFrom (b : Body) (p parent : Option Nat) (next : Nat) : List Nat :=
  (b.parentsFrom parent next).idxsOf p next

/-- The numbers of the sections of a body without an end marker, numbered in the same way. -/
def openNumbersFrom (b : Body) (above : List Text) (next : Nat) : List Nat :=
  (b.place above).findIdxs (·.endComment.isNone) next

theorem childNumbersFrom_nested (p parent : Option Nat) (next : Nat) (name start : Text)
    (inner : Body) (stop : Option Text) (rest : Body) :
    (nested name start inner stop rest).childNumbersFrom p parent next =
      (if parent = p then [next] else []) ++ (inner.childNumbersFrom p (some next) (next + 1) ++
        rest.childNumbersFrom p parent (next + 1 + inner.count)) := by
  by_cases h : parent = p <;> simp [childNumbersFrom, parentsFrom, h]

theorem childNumbersFrom_eq_nil {p : Option Nat} (h : p ∉ b.parentsFrom parent next) :
    b.childNumbersFrom p parent next = [] := by
  rw [childNumbersFrom, List.idxsOf_eq_nil_iff]
  intro q hq
  rw [beq_eq_false_iff_ne]
  rintro rfl
  exact h hq

/-- Where the page goes on behind a body, no section of the body lacks its end marker. -/
theorem WellMarked.openNumbersFrom_eq_nil (h : b.WellMarked owner false r r') (above : List Text)
    (next : Nat) : b.openNumbersFrom above next = [] := by
  rw [openNumbersFrom, List.findIdxs_eq_nil_iff]
  intro s hs
  rw [Option.isNone_eq_false_iff, Option.isSome_iff_ne_none]
  exact h.endComment_ne_none rfl hs

theorem WellMarked.openNumbersFrom_closed {inner rest : Body} {name start stop : Text}
    (inside : inner.WellMarked owner false r r') (above : List Text) (next : Nat) :
    (nested name start inner (some stop) rest).openNumbersFrom above next =
      rest.openNumbersFrom above (next + 1 + inner.count) := by
  have hinner := inside.openNumbersFrom_eq_nil (above ++ [name]) (next + 1)
  have hlen := length_place (above ++ [name]) inner
  simp only [openNumbersFrom] at hinner ⊢
  simp [place, placeOne, hinner, hlen]

theorem openNumbersFrom_unclosed (name start : Text) (inner : Body) (above : List Text)
    (next : Nat) : (nested name start inner none nil).openNumbersFrom above next =
      next :: inner.openNumbersFrom (above ++ [name]) (next + 1) := by
  simp [openNumbersFrom, place, placeOne]

/-- In a body of the grammar the sections without an end marker form a chain: the first is the last
one of the body, and each of the others the last one right inside the one before it. -/
theorem WellMarked.isChain_openNumbersFrom (h : b.WellMarked owner atEnd r r') (above : List Text)
    (hparent : ∀ q ∈ parent, q < next) :
    (parent :: (b.openNumbersFrom above next).map some).IsChain
      fun p q => (b.childNumbersFrom p parent next).getLast? = q := by
  -- By induction on the grammar. A closed section and what it holds stand in front of the chain
  -- and change no last child; an open one is the first link, and what it holds has the others.
  induction h generalizing above parent next with
  | nil => exact .singleton _
  | line _ _ ih => exact ih above hparent
  | closed _ inside _ _ _ ih =>
    rw [inside.openNumbersFrom_closed]
    refine (ih above fun q hq => by have := hparent q hq; omega).imp_of_mem_tail_imp ?_
    rintro p q - hq hlast
    obtain ⟨j, -, rfl⟩ := List.mem_map.mp hq
    rw [childNumbersFrom_nested, ← List.append_assoc, List.getLast?_append, hlast]
    rfl
  | @unclosed _ r _ n start inner _ _ ih =>
    have hkids (p : Option Nat) :
        (nested (r.assign n).1 start inner none Body.nil).childNumbersFrom p parent next =
          (if parent = p then [next] else []) ++ inner.childNumbersFrom p (some next) (next + 1) :=
      (childNumbersFrom_nested ..).trans (congrArg _ (List.append_nil _))
    have hne (k : Nat) (hk : next ≤ k) : parent ≠ some k := by
      rintro rfl
      exact absurd (hparent k rfl) (by omega)
    rw [openNumbersFrom_unclosed, List.map_cons, List.isChain_cons_cons]
    constructor
    -- The open section is the only one that stands where the body does.
    · have hin : parent ∉ inner.parentsFrom (some next) (next + 1) :=
        notMem_parentsFrom (hne next (Nat.le_refl next)) fun k hk =>
          .inl (by have := hparent k hk; omega)
      rw [hkids, if_pos rfl, childNumbersFrom_eq_nil hin]
      rfl
    -- From there on the chain is the one of what it holds.
    · refine (ih (above ++ [(r.assign n).1]) (by simp)).imp_of_mem_imp ?_
      rintro p q hp - hlast
      have hp' : parent ≠ p := by
        rcases List.mem_cons.mp hp with rfl | hp
        · exact hne next (Nat.le_refl next)
        · obtain ⟨k, hk, rfl⟩ := List.mem_map.mp hp
          exact hne k (by have := List.ge_of_mem_findIdxs k hk; omega)
      rw [hkids, if_neg hp']
      exact hlast

/-- The paths of the open sections are those of the sections without an end marker. -/
theorem WellMarked.openPaths_openChain (h : b.WellMarked owner atEnd r r') (above : List Text) :
    openPaths (b.openChain ++ above.reverse) = openPaths above.reverse ++
      ((b.place above).filter (·.endComment.isNone)).map (·.fullPath) := by
  induction h generalizing above with
  | nil => simp [openChain, place]
  | line _ _ ih => exact ih above
  | @closed _ _ r _ _ n start stop inner rest _ inside _ _ ihi iha =>
    have hin : (inner.place (above ++ [(r.assign n).1])).filter (·.endComment.isNone) = [] := by
      rw [List.filter_eq_nil_iff]
      intro s hs
      simpa using inside.endComment_ne_none rfl hs
    simp [openChain, place, placeOne, iha above, hin]
  | @unclosed _ r _ n start inner _ _ ih =>
    have hi := ih (above ++ [(r.assign n).1])
    simp only [List.reverse_append, List.reverse_singleton, List.singleton_append] at hi
    simp [openChain, place, placeOne, hi, openPaths, PlacedSection.fullPath]

end Body

/-! ## The sections of a page without an end marker -/

theorem filterMap_findIdxs {α : Type} (p : α → Bool) (xs : List α) :
    (xs.findIdxs p).filterMap (xs[·]?) = xs.filter p := by
  induction xs with
  | nil => rfl
  | cons x xs ih =>
    have hshift : (xs.findIdxs p 1).filterMap ((x :: xs)[·]?) =
        (xs.findIdxs p).filterMap (xs[·]?) := by
      rw [List.findIdxs_start, List.filterMap_map]
      rfl
    by_cases h : p x <;> simp [h, hshift, ih]

theorem exists_rel_of_isChain_cons {α : Type} {R : α → α → Prop} {a b : α} {l : List α}
    (h : (a :: l).IsChain R) (hb : b ∈ l) : ∃ c ∈ a :: l, R c b := by
  induction l generalizing a with
  | nil => simp at hb
  | cons d l ih =>
    obtain ⟨had, hl⟩ := List.isChain_cons_cons.mp h
    rcases List.mem_cons.mp hb with rfl | hb
    · exact ⟨a, List.mem_cons_self, had⟩
    · obtain ⟨c, hc, hcb⟩ := ih hl hb
      exact ⟨c, List.mem_cons_of_mem _ hc, hcb⟩

namespace Document

/-- The numbers of the sections without an end marker. -/
def openNumbers (d : Document) : List Nat := d.sections.findIdxs (·.endComment.isNone)

variable {d : Document} {t : Text} {i j : Nat}

theorem unterminated_eq (d : Document) :
    d.unterminated = d.openNumbers.filterMap (d.sections[·]?) :=
  (filterMap_findIdxs _ d.sections).symm

theorem mem_openNumbers_iff :
    i ∈ d.openNumbers ↔ ∃ s, d.sections[i]? = some s ∧ s.endComment = none := by
  rw [openNumbers, List.mem_findIdxs_iff_exists_getElem_pos]
  constructor
  · rintro ⟨hi, hs⟩
    exact ⟨d.sections[i], List.getElem?_eq_getElem hi, by simpa using hs⟩
  · rintro ⟨s, hs, he⟩
    obtain ⟨hi, rfl⟩ := List.getElem?_eq_some_iff.mp hs
    exact ⟨hi, by simp [he]⟩

/-- **Sections without an end marker form one chain of last children.** -/
theorem isChain_openNumbers (t : Text) :
    (none :: (ofText t).openNumbers.map some).IsChain
      fun p q => ((ofText t).body.childNumbers p).getLast? = q := by
  obtain ⟨_, -, -, hwf⟩ := wellFormed_ofText t
  obtain ⟨r, hm⟩ := hwf.marked
  exact hm.isChain_openNumbersFrom [] (by simp)

theorem mem_openNumbers_of_parent (hj : j ∈ (ofText t).openNumbers)
    (hp : (ofText t).body.parents[j]? = some (some i)) : i ∈ (ofText t).openNumbers := by
  obtain ⟨q, hq, hlast⟩ :=
    exists_rel_of_isChain_cons (isChain_openNumbers t) (List.mem_map_of_mem hj)
  -- The link before `j` is the section right around it.
  have hmem := List.mem_of_getLast? hlast
  obtain ⟨hlt, hjq⟩ := List.mem_idxsOf_iff_exists_getElem_pos.mp hmem
  rw [List.getElem?_eq_getElem hlt, eq_of_beq hjq] at hp
  obtain rfl := Option.some.inj hp
  simpa using hq

/-- **What encloses a section without an end marker has none either.** -/
theorem mem_openNumbers_of_encloses (h : (ofText t).Encloses i j)
    (hj : j ∈ (ofText t).openNumbers) : i ∈ (ofText t).openNumbers := by
  induction h with
  | single hp => exact mem_openNumbers_of_parent hj hp
  | tail _ hp ih => exact ih (mem_openNumbers_of_parent hj hp)

end Document

/-! ## What is reported, and what is closed -/

/-- Whether the notice is about a section without an end marker. -/
def Notice.isUnterminated : Notice → Bool
  | .unterminated _ => true
  | _ => false

/-- The notices about single lines are about no such section. -/
theorem Event.filter_isUnterminated_notices (opened : List Text) (es : List Event) :
    (Event.notices opened es).filter Notice.isUnterminated = [] := by
  induction es generalizing opened with
  | nil => rfl
  | cons e es ih =>
    cases e with
    | text l => exact ih opened
    | stray n l =>
      rw [Event.notices, List.filter_cons_of_neg (by simp [Notice.isUnterminated])]
      exact ih opened
    | opening name l => exact ih (name :: opened)
    | closing l => exact ih opened.tail

/-- Reading a text gives a notice for each section without an end marker, from the outermost on. -/
theorem Reading.filter_isUnterminated_notices (t : Text) :
    (Reading.ofText t).notices.filter Notice.isUnterminated =
      (Document.ofText t).unterminated.map fun s => .unterminated s.fullPath := by
  let tail := (Text.lines t).dropWhile fun l => !endsHeader l
  let b := Body.ofEvents ((⟨.empty, []⟩ : Progress).readAll tail).1
  have hm := Body.wellMarked_readAll .empty tail
  -- When the text ends, the open sections of the body are open.
  have hopened : ((⟨.empty, []⟩ : Progress).readAll tail).2.opened = b.openChain := by
    have hr := hm.readAll [] rfl
    rw [Body.allLines_readAll, List.append_nil] at hr
    rw [hr]
  have hpaths : openPaths b.openChain = (Document.ofText t).unterminated.map (·.fullPath) := by
    have hc := hm.openPaths_openChain []
    rwa [List.reverse_nil, List.append_nil] at hc
  have hdiscarded : (if b.lines.length = 0 then [] else [Notice.discarded b.lines.length]).filter
      Notice.isUnterminated = [] := by
    split <;> rfl
  have hunterminated (paths : List Text) : (paths.map Notice.unterminated).filter
      Notice.isUnterminated = paths.map Notice.unterminated := by
    rw [List.filter_eq_self, List.forall_mem_map]
    exact fun _ _ => rfl
  have hnotices : (Reading.ofText t).notices =
      Event.notices [] ((⟨.empty, []⟩ : Progress).readAll tail).1 ++
        (openPaths b.openChain).map .unterminated ++
          if b.lines.length = 0 then [] else [.discarded b.lines.length] := by
    rw [← hopened]
    rfl
  rw [hnotices, List.filter_append, List.filter_append, Event.filter_isUnterminated_notices,
    hdiscarded, hunterminated, hpaths, List.map_map, List.nil_append, List.append_nil]
  rfl

namespace Event

/-- Whether the event begins a section. -/
def begins : Event → Bool
  | opening .. => true
  | _ => false

/-- Whether the event ends a section. -/
def ends : Event → Bool
  | closing _ => true
  | _ => false

end Event

namespace Progress

/-- A line that begins a section leaves one more of them open, and one that ends a section leaves
one less. -/
theorem length_opened_read (p : Progress) (l : Text) :
    (p.read l).2.opened.length + [(p.read l).1].countP Event.ends =
      p.opened.length + [(p.read l).1].countP Event.begins := by
  rcases p.isOwnLine_or l with own | ⟨n, hm⟩ | ⟨name, outer, ho, hc⟩
  · have he : (Event.ofOwnLine l).ends = false ∧ (Event.ofOwnLine l).begins = false := by
      unfold Event.ofOwnLine
      split <;> exact ⟨rfl, rfl⟩
    simp [p.read_of_isOwnLine own, he]
  · simp [p.read_of_begins hm, Event.ends, Event.begins]
  · obtain ⟨r, opened⟩ := p
    obtain rfl : opened = name :: outer := ho
    simp [read_of_closes hc, Event.ends, Event.begins]

/-- The sections that are open are those begun and not ended. -/
theorem length_opened_readAll (p : Progress) (ls : List Text) :
    (p.readAll ls).2.opened.length + (p.readAll ls).1.countP Event.ends =
      p.opened.length + (p.readAll ls).1.countP Event.begins := by
  induction ls generalizing p with
  | nil => rfl
  | cons l ls ih =>
    have hl := p.length_opened_read l
    have hls := ih (p.read l).2
    simp only [readAll, List.countP_cons, List.countP_nil] at hl hls ⊢
    omega

/-- **The page itself is never closed**: however far a text is read, no more sections have been
ended than begun. -/
theorem closings_le_openings (r : Registry) (ls : List Text) :
    ((⟨r, []⟩ : Progress).readAll ls).1.countP Event.ends ≤
      ((⟨r, []⟩ : Progress).readAll ls).1.countP Event.begins := by
  have hl := length_opened_readAll ⟨r, []⟩ ls
  simp only [List.length_nil] at hl
  omega

end Progress

end PagePartials
