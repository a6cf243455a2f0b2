import PagePartials.Proofs.Document.Unterminated
import PagePartials.Proofs.Section.Grafting

/-!
# Linking the sections of a page

While a page is read its sections can be built one by one: a line goes to the innermost open
section, a begin marker makes a new section the last child of that section and opens it, and an end
marker closes it. Below all open sections lies the page itself. Whatever the text, no step of this
fails, and the table that it builds holds the sections of the page: a walk from the page meets them
in their order, each stands where it stands in the page, and the sections left open are those
without an end marker.

## Main definitions

* `Linking`: the sections linked so far, and which of them are open
* `Linking.step k e`, `Linking.run k es`: what an event, and a list of events, makes of that
* `Linking.ofText t`: the sections of the page with text `t`, linked
* `Linking.Links k d`: `k` has the sections of `d`, linked

## Main results

* `Body.WellMarked.run_events`: the events of a body put its sections into the open one
* `Linking.links_ofText`: linking the sections of a page succeeds and gives the sections of the page
-/

namespace PagePartials

open SectionName (Registry)

/-! ## Event by event -/

/-- What is built while a page is read: the sections so far, and the places of those that are open,
innermost first, with the place of the page below them. -/
structure Linking where
  table : SectionTable
  opened : List Ref
  deriving DecidableEq, Repr

namespace Linking

/-- The page before anything is read. -/
def start : Linking := ⟨SectionTable.empty.push (.bare rootPath), [0]⟩

/-- The place of the innermost open section, or of the page. -/
def current (k : Linking) : Ref := k.opened.headD 0

/-- What an event makes of the sections. -/
def step (k : Linking) : Event → Except LinkError Linking
  | .text l | .stray _ l => .ok ⟨k.table.update k.current (·.addLine l), k.opened⟩
  | .opening name l =>
    ((k.table.push (.begun name l)).addChild k.current k.table.size).map
      fun t => ⟨t, k.table.size :: k.opened⟩
  | .closing l => .ok ⟨k.table.update k.current (·.endWith l), k.opened.tail⟩

/-- What events make of the sections, one after the other. -/
def run (k : Linking) (es : List Event) : Except LinkError Linking := es.foldlM step k

/-- The sections of the page with the given text, linked while it is read. -/
def ofText (t : Text) : Except LinkError Linking :=
  start.run ((⟨.empty, []⟩ : Progress).readAll
    ((Text.lines t).dropWhile fun l => !endsHeader l)).1

variable {k k' : Linking} {e : Event} {es fs : List Event}

theorem run_cons (h : k.step e = .ok k') : k.run (e :: es) = k'.run es := by
  rw [run, List.foldlM_cons, h]
  rfl

theorem run_append (h : k.run es = .ok k') : k.run (es ++ fs) = k'.run fs := by
  rw [run] at h
  rw [run, List.foldlM_append, h]
  rfl

theorem step_ofOwnLine (k : Linking) (l : Text) :
    k.step (.ofOwnLine l) = .ok ⟨k.table.update k.current (·.addLine l), k.opened⟩ := by
  unfold Event.ofOwnLine
  split <;> rfl

end Linking

/-! ## Linking a body -/

namespace Linking

open SectionTable

variable {t : SectionTable} {p : Nat} {outer : List Ref}

theorem step_opening (h : t.Within p) (name l : Text) :
    (⟨t, p :: outer⟩ : Linking).step (.opening name l) =
      .ok ⟨t.attach p (.begun name l), t.size :: p :: outer⟩ := by
  have hnew : t.size ∉ (t.get p).children := fun hc => Nat.lt_irrefl _ (h.children_lt _ hc)
  rw [step, current, List.headD_cons, addChild_push h.lt_size hnew rfl]
  rfl

theorem step_closing (name start l : Text) (inner : Body) :
    (⟨t.nest p name start inner none, t.size :: p :: outer⟩ : Linking).step (.closing l) =
      .ok ⟨t.nest p name start inner (some l), p :: outer⟩ := by
  rw [← update_nest]
  rfl

end Linking

namespace Body

open SectionTable Linking

/-- **The events of a body put its sections into the innermost open section**, behind what it holds,
and leave open those without an end marker. -/
theorem WellMarked.run_events {owner : Option Text} {atEnd : Bool} {r r' : Registry} {b : Body}
    (h : b.WellMarked owner atEnd r r') {t : SectionTable} {p : Nat} (ht : t.Within p)
    (outer : List Ref) (above : List Text) :
    (⟨t, p :: outer⟩ : Linking).run b.events =
      .ok ⟨t.graft p b, (b.openNumbersFrom above t.size).reverse ++ p :: outer⟩ := by
  -- By induction on the grammar. A new section is the last one of the table, so what stands inside
  -- it is put there behind all others, and the section around it is found again where it was.
  induction h generalizing t p outer above with
  | nil => rw [graft_nil]; rfl
  | @line _ _ _ _ l rest _ _ ih =>
    have hrest := ih (ht.addLine l) outer above
    rw [graft_line, size_update] at hrest
    rw [events, run_cons (step_ofOwnLine _ l)]
    exact hrest
  | @closed _ _ r _ _ n start stop inner rest _ inside _ _ ihi iha =>
    have hinner := ihi (.attach t p (r.assign n).1 start) (p :: outer) (above ++ [(r.assign n).1])
    rw [graft_attach, inside.openNumbersFrom_eq_nil, List.reverse_nil, List.nil_append] at hinner
    have hrest := iha (ht.nest (r.assign n).1 start inner (some stop)) outer above
    rw [graft_nest ht.lt_size, size_nest] at hrest
    rw [events, run_cons (step_opening ht _ start), run_append hinner, Option.toList_some,
      List.map_singleton, List.singleton_append, run_cons (step_closing ..), hrest,
      inside.openNumbersFrom_closed]
  | @unclosed _ r _ n start inner _ _ ih =>
    have hinner := ih (.attach t p (r.assign n).1 start) (p :: outer) (above ++ [(r.assign n).1])
    rw [graft_attach, size_attach] at hinner
    rw [events, run_cons (step_opening ht _ start), openNumbersFrom_unclosed,
      ← graft_nest ht.lt_size, graft_nil]
    simpa [events] using hinner

end Body

/-! ## Linking a page -/

namespace Body

/-- The numbers of the sections around sections, when all are numbered one higher and the page
itself has the number `0`. -/
theorem map_parentsFrom (b : Body) (parent : Option Nat) (next : Nat) :
    (b.parentsFrom parent next).map (fun p => some (p.elim 0 (· + 1))) =
      b.parentsFrom (some (parent.elim 0 (· + 1))) (next + 1) := by
  induction b generalizing parent next with
  | nil => rfl
  | line _ rest ih => exact ih parent next
  | nested _ _ inner _ rest ih₁ ih₂ =>
    rw [parentsFrom, parentsFrom, List.map_cons, List.map_append, ih₁, ih₂, Option.elim_some,
      Nat.add_right_comm (next + 1) inner.count 1]

end Body

namespace Linking

/-- The sections of the page, linked. The page itself is at place `0` and holds the lines that
belong to no section; each section is one place behind its number, linked to the one around it or to
the page. All walks meet the sections in their order, and find each where it stands in the page.
The sections without an end marker are open. -/
structure Links (k : Linking) (d : Document) : Prop where
  content : (k.table.get 0).content = d.body.lines
  size : k.table.size = d.sections.length + 1
  parent : ∀ i p, d.body.parents[i]? = some p →
    (k.table.get (i + 1)).parent = some (p.elim 0 (· + 1))
  walk : k.table.walk 0 = List.range' 1 d.sections.length
  iter : k.table.iter (k.table.get 0).children = k.table.walk 0
  count : k.table.count (k.table.get 0).children = d.sections.length
  place : (k.table.walk 0).map k.table.place = d.sections
  outline : k.table.outline 0 d.header = d.outline
  unterminated : (k.table.unterminated 0).map k.table.place = d.unterminated
  opened : k.opened = (d.openNumbers.map (· + 1)).reverse ++ [0]

/-- The page itself, with the sections of the body linked to it. -/
def page (b : Body) : SectionTable := start.table.graft 0 b

theorem nodes_page (b : Body) :
    (page b).nodes = [(LinkedSection.bare rootPath).grow b 1] ++ (b.linked 0 1 ++ []) := by
  rw [List.append_nil]
  rfl

theorem holds_page (b : Body) : (page b).Holds 0 1 b := ⟨_, [], nodes_page b, rfl⟩

theorem walk_page (b : Body) : (page b).walk 0 = List.range' 1 b.count :=
  (holds_page b).walk_eq rfl

theorem parent_page {b : Body} {i : Nat} {p : Option Nat} (hp : b.parents[i]? = some p) :
    ((page b).get (i + 1)).parent = some (p.elim 0 (· + 1)) := by
  have hparents : (b.linked 0 1).map (·.parent) =
      b.parents.map fun p => some (p.elim 0 (· + 1)) := by
    rw [Body.map_parent_linked, Body.parents, Body.map_parentsFrom, Option.elim_none]
  have hi := congrArg (·[i]?) hparents
  simp only [List.getElem?_map, hp, Option.map_some, Option.map_eq_some_iff] at hi
  obtain ⟨s, hs, hparent⟩ := hi
  rw [SectionTable.get, nodes_page, List.append_nil, List.singleton_append, List.getD_cons_succ,
    List.getD_eq_getElem?_getD, hs]
  exact hparent

theorem iter_page (b : Body) : (page b).iter ((page b).get 0).children = (page b).walk 0 :=
  (holds_page b).iter_eq.trans (walk_page b).symm

theorem map_place_walk_page (d : Document) :
    ((page d.body).walk 0).map (page d.body).place = d.sections := by
  rw [walk_page]
  exact (holds_page d.body).map_place (SectionTable.leads_root rfl) (Nat.zero_le _)

theorem links_page (d : Document) :
    Links ⟨page d.body, (d.openNumbers.map (· + 1)).reverse ++ [0]⟩ d where
  content := rfl
  size := by
    rw [SectionTable.size, nodes_page, Document.sections, Body.length_place]
    simp [Nat.add_comm]
  parent := fun _ _ => parent_page
  walk := by rw [walk_page, Document.sections, Body.length_place]
  iter := iter_page d.body
  count := by
    rw [SectionTable.count, iter_page, walk_page, List.length_range', Document.sections,
      Body.length_place]
  place := map_place_walk_page d
  outline := (holds_page d.body).outline_eq rfl rfl
  unterminated := by
    rw [Document.unterminated, ← map_place_walk_page d, List.filter_map]
    rfl
  opened := rfl

/-- The lines of the body of a page are read as the events of the body. -/
theorem events_ofText (t : Text) :
    ((⟨.empty, []⟩ : Progress).readAll ((Text.lines t).dropWhile fun l => !endsHeader l)).1 =
      (Document.ofText t).body.events := by
  have hread := (Body.wellMarked_readAll .empty
    ((Text.lines t).dropWhile fun l => !endsHeader l)).readAll [] rfl
  rw [Body.allLines_readAll] at hread
  exact congrArg Prod.fst hread

/-- **Whatever the text, linking the sections of a page succeeds**, and gives the sections of the
page. -/
theorem links_ofText (t : Text) : ∃ k, ofText t = .ok k ∧ k.Links (Document.ofText t) := by
  refine ⟨_, ?_, links_page (Document.ofText t)⟩
  have hstart : start.table.Within 0 := ⟨by decide, fun c hc => absurd hc List.not_mem_nil⟩
  have hopen : (Document.ofText t).body.openNumbersFrom [] 1 =
      (Document.ofText t).openNumbers.map (· + 1) := by
    rw [Body.openNumbersFrom, List.findIdxs_start]
    rfl
  obtain ⟨_, -, -, hwf⟩ := Document.wellFormed_ofText t
  obtain ⟨r, hm⟩ := hwf.marked
  rw [ofText, events_ofText, ← hopen]
  exact hm.run_events hstart [] []

end Linking

end PagePartials
