import PagePartials.Proofs.Document.Closing
import PagePartials.Proofs.Document.Preorder

/-!
# How deep the sections of a page stand

The first section of a page stands in no other, and each of the others is at most one level deeper
than the one before it. So the depths of the sections, in their order, tell which one stands in which:
the section right around one is the last before it that is less deep. With the names on its path for
each section, the whole tree of a page is known.

## Main definitions

* `parentsOfDepths opened next ds`: which sections stand right around those with the depths `ds`
* `Document.SameTree d d'`: the sections of two pages have the same names and stand in each other in
  the same way

## Main results

* `Body.isChain_depth_place`: from one section to the next, the depth rises by at most one
* `Document.parents_eq_parentsOfDepths`: which section stands in which, from the depths
* `Document.sameTree_iff`: pages have the same tree just if their sections have the same paths
* `Linking.Links.sameTree_iff`: what that says of the sections linked to each other
-/

namespace PagePartials

/-! ## Depths -/

namespace Body

variable {b : Body} {above : List Text} {s : PlacedSection}

theorem above_eq_of_mem_head? (hs : s ∈ (b.place above).head?) : s.above = above := by
  induction b with
  | nil => exact nomatch hs
  | line _ rest ih => exact ih hs
  | nested name start inner stop rest _ _ =>
    obtain rfl := Option.some.inj hs
    rfl

theorem length_above_le_depth (hs : s ∈ b.place above) : above.length ≤ s.depth :=
  (isPrefix_above hs).length_le

/-- From one section of a body to the next, the depth rises by at most one. -/
theorem isChain_depth_place (b : Body) (above : List Text) :
    (b.place above).IsChain fun s u => u.depth ≤ s.depth + 1 := by
  induction b generalizing above with
  | nil => exact .nil
  | line _ rest ih => exact ih above
  | nested name start inner stop rest ih₁ ih₂ =>
    rw [place, List.isChain_cons, List.isChain_append]
    refine ⟨fun u hu => ?_, ih₁ _, ih₂ _, fun s hs u hu => ?_⟩
    -- Right behind a section comes the first one inside it, or else the one beside it.
    · show u.above.length ≤ above.length + 1
      rcases hhead : (inner.place (above ++ [name])).head? with _ | v
      · rw [List.head?_append, hhead, Option.none_or] at hu
        rw [above_eq_of_mem_head? hu]
        exact Nat.le_succ _
      · rw [List.head?_append, hhead, Option.some_or] at hu
        obtain rfl := Option.some.inj hu
        rw [above_eq_of_mem_head? hhead, List.length_append]
        exact Nat.le_refl _
    -- The section beside it is less deep than all those inside it.
    · have hin := length_above_le_depth (List.mem_of_getLast? hs)
      have hout : u.above = above := above_eq_of_mem_head? hu
      rw [List.length_append, List.length_singleton] at hin
      show u.above.length ≤ s.depth + 1
      rw [hout]
      omega

end Body

/-! ## Parents from depths -/

/-- For each of the sections with the given depths, the number of the section right around it. The
sections are numbered from `next` on, and `opened` has the numbers of those that may have sections
inside them yet, innermost first; a section ends all that are as deep as it is or deeper. -/
def parentsOfDepths (opened : List Nat) (next : Nat) : List Nat → List (Option Nat)
  | [] => []
  | d :: ds =>
    let around := opened.drop (opened.length - d)
    around.head? :: parentsOfDepths (next :: around) (next + 1) ds

/-- Read off the depths, a body is in order, whatever was open inside the section around it; what of
its own sections is left open then lies inside that section. -/
theorem Body.exists_parentsOfDepths_eq (b : Body) (next : Nat) {opened : List Nat}
    {above : List Text} (hlen : opened.length = above.length) (closed ds : List Nat) :
    ∃ closed', parentsOfDepths (closed ++ opened) next ((b.place above).map (·.depth) ++ ds) =
      b.parentsFrom opened.head? next ++
        parentsOfDepths (closed' ++ opened) (next + b.count) ds := by
  induction b generalizing above opened next closed ds with
  | nil => exact ⟨closed, rfl⟩
  | line _ rest ih => exact ih next hlen closed ds
  | nested name start inner stop rest ih₁ ih₂ =>
    have haround : (closed ++ opened).drop ((closed ++ opened).length - above.length) = opened := by
      rw [← hlen, List.length_append, Nat.add_sub_cancel, List.drop_left]
    have hinner : (next :: opened).length = (above ++ [name]).length := by
      rw [List.length_cons, hlen, List.length_append, List.length_singleton]
    obtain ⟨closed₁, h₁⟩ := ih₁ (next + 1) hinner [] ((rest.place above).map (·.depth) ++ ds)
    obtain ⟨closed₂, h₂⟩ := ih₂ (next + 1 + inner.count) hlen (closed₁ ++ [next]) ds
    refine ⟨closed₂, ?_⟩
    rw [List.nil_append, List.head?_cons] at h₁
    rw [List.append_assoc, List.singleton_append] at h₂
    have hcount : next + (nested name start inner stop rest).count =
        next + 1 + inner.count + rest.count := by
      rw [count]
      omega
    have hdepth : (placeOne above name start inner stop).depth = above.length := rfl
    rw [place, parentsFrom, List.map_cons, List.map_append, List.cons_append, List.append_assoc,
      parentsOfDepths, hdepth, haround, h₁, h₂, hcount, List.cons_append, List.append_assoc]

namespace Document

variable {d d' : Document} {s u : PlacedSection} {i j : Nat}

/-- The first section of a page stands in no other. -/
theorem depth_eq_zero_of_mem_head? (hs : s ∈ d.sections.head?) : s.depth = 0 :=
  congrArg List.length (Body.above_eq_of_mem_head? hs)

/-- **Which section stands in which, from the depths** of the sections in their order. -/
theorem parents_eq_parentsOfDepths (d : Document) :
    d.body.parents = parentsOfDepths [] 0 (d.sections.map (·.depth)) := by
  have hlen : ([] : List Nat).length = ([] : List Text).length := rfl
  obtain ⟨closed, h⟩ := d.body.exists_parentsOfDepths_eq 0 hlen [] []
  rw [List.nil_append, List.append_nil, parentsOfDepths, List.append_nil] at h
  exact h.symm

theorem length_parents (d : Document) : d.body.parents.length = d.sections.length := by
  rw [Body.parents, Body.length_parentsFrom, sections, Body.length_place]

end Document

/-! ## Paths from parents -/

theorem Body.above_of_mem_topRegions {b : Body} {above : List Text} {g : Region}
    (hg : g ∈ b.topRegions above) : g.above = above := by
  induction b with
  | nil => exact absurd hg List.not_mem_nil
  | line _ rest ih => exact ih hg
  | nested name start inner stop rest _ ih =>
    rcases List.mem_cons.mp hg with rfl | hg
    · rfl
    · exact ih hg

namespace Document

variable {d d' : Document} {s u : PlacedSection} {i j : Nat}

theorem exists_mem_childRegions {p : Option Nat} (hp : d.body.parents[j]? = some p)
    (hu : d.sections[j]? = some u) : ∃ g ∈ d.childRegions p, g.placed = u := by
  obtain ⟨g, hg, rfl⟩ := Body.exists_region hu
  obtain ⟨hj, hpj⟩ := List.getElem?_eq_some_iff.mp hp
  have hmem : j ∈ d.body.childNumbers p := by
    rw [Body.childNumbers, List.mem_idxsOf_iff_getElem_pos hj, hpj]
    exact BEq.rfl
  exact ⟨g, List.mem_filterMap.mpr ⟨j, hmem, hg⟩, rfl⟩

/-- Above a section in no other one there are no names. -/
theorem above_eq_nil (hp : d.body.parents[j]? = some none) (hu : d.sections[j]? = some u) :
    u.above = [] := by
  obtain ⟨g, hg, rfl⟩ := exists_mem_childRegions hp hu
  rw [childRegions_none] at hg
  exact Body.above_of_mem_topRegions hg

/-- Above a section there are the names on the path of the section right around it. -/
theorem above_eq_names (hp : d.body.parents[j]? = some (some i)) (hs : d.sections[i]? = some s)
    (hu : d.sections[j]? = some u) : u.above = s.names := by
  obtain ⟨g, hg, rfl⟩ := exists_mem_childRegions hp hu
  obtain ⟨f, hf, rfl⟩ := Body.exists_region hs
  rw [childRegions_eq hf] at hg
  exact Body.above_of_mem_topRegions hg

/-! ## The tree of a page -/

/-- Whether two pages have the same tree of sections: as many sections, and those of one number have
one name and stand right inside sections of one number. -/
def SameTree (d d' : Document) : Prop :=
  d.body.parents = d'.body.parents ∧ d.sections.map (·.name) = d'.sections.map (·.name)

theorem SameTree.length_eq (h : d.SameTree d') : d.sections.length = d'.sections.length := by
  simpa using congrArg List.length h.2

/-- In the same trees, sections of one number have one path. -/
theorem SameTree.names_eq (h : d.SameTree d') (hs : d.sections[j]? = some s)
    (hu : d'.sections[j]? = some u) : s.names = u.names := by
  -- By induction on the number: what stands around a section has a smaller one.
  induction j using Nat.strong_induction_on generalizing s u with
  | _ j ih =>
    obtain ⟨hparents, hnames⟩ := h
    obtain ⟨hj, -⟩ := List.getElem?_eq_some_iff.mp hs
    obtain ⟨hj', -⟩ := List.getElem?_eq_some_iff.mp hu
    have hname : s.name = u.name := by
      have hmap := congrArg (·[j]?) hnames
      simp only [List.getElem?_map, hs, hu, Option.map_some] at hmap
      exact Option.some.inj hmap
    have habove : s.above = u.above := by
      obtain ⟨p, hp⟩ : ∃ p, d.body.parents[j]? = some p :=
        ⟨_, List.getElem?_eq_getElem (d.length_parents ▸ hj)⟩
      have hp' : d'.body.parents[j]? = some p := hparents ▸ hp
      cases p with
      | none => rw [above_eq_nil hp hs, above_eq_nil hp' hu]
      | some i =>
        have hij := lt_of_parent hp
        have hsi := List.getElem?_eq_getElem (hij.trans hj)
        have hui := List.getElem?_eq_getElem (hij.trans hj')
        rw [above_eq_names hp hsi hs, above_eq_names hp' hui hu, ih i hij hsi hui]
    rw [PlacedSection.names, habove, hname, PlacedSection.names]

/-- **Pages have the same tree just if their sections have the same paths**, one after the other. -/
theorem sameTree_iff :
    d.SameTree d' ↔ d.sections.map (·.names) = d'.sections.map (·.names) := by
  constructor
  · intro h
    refine List.ext_getElem (by simpa using h.length_eq) fun j hj hj' => ?_
    rw [List.length_map] at hj hj'
    rw [List.getElem_map, List.getElem_map]
    exact h.names_eq (List.getElem?_eq_getElem hj) (List.getElem?_eq_getElem hj')
  -- The depth is how many names stand above the last one on the path.
  · intro h
    have hdepths : d.sections.map (·.depth) = d'.sections.map (·.depth) := by
      have hmap : ∀ ss : List PlacedSection, ss.map (·.depth) =
          (ss.map (·.names)).map fun ns => ns.length - 1 := by
        intro ss
        simp [PlacedSection.depth, PlacedSection.names]
      rw [hmap, h, ← hmap]
    have hnames : d.sections.map (·.name) = d'.sections.map (·.name) := by
      have hmap : ∀ ss : List PlacedSection, (ss.map (·.name)) =
          (ss.map (·.names)).map fun ns => ns.getLastD [] := by
        intro ss
        simp [PlacedSection.names]
      rw [hmap, h, ← hmap]
    exact ⟨by rw [parents_eq_parentsOfDepths, hdepths, ← parents_eq_parentsOfDepths], hnames⟩

end Document

/-! ## The tree of linked sections -/

namespace Linking

variable {k k' : Linking} {d d' : Document}

theorem Links.map_parent_walk (h : k.Links d) :
    ((k.table.walk 0).map fun r => (k.table.get r).parent) =
      d.body.parents.map fun p => some (p.elim 0 (· + 1)) := by
  refine List.ext_getElem ?_ fun i hi hi' => ?_
  · rw [List.length_map, List.length_map, h.walk, List.length_range', Document.length_parents]
  · rw [List.length_map] at hi'
    simp only [List.getElem_map, h.walk, List.getElem_range', Nat.one_mul, Nat.add_comm 1 i]
    exact h.parent i _ (List.getElem?_eq_getElem hi')

theorem Links.map_name_walk (h : k.Links d) :
    ((k.table.walk 0).map fun r => (k.table.get r).name) = d.sections.map (·.name) := by
  rw [← h.place, List.map_map]
  rfl

/-- Pages have the same tree just if a walk over their linked sections meets the same places in the
same order, where at each place there are a parent and a name that are the same. -/
theorem Links.sameTree_iff (h : k.Links d) (h' : k'.Links d') :
    d.SameTree d' ↔ k.table.walk 0 = k'.table.walk 0 ∧
      ∀ r ∈ k.table.walk 0, (k.table.get r).parent = (k'.table.get r).parent ∧
        (k.table.get r).name = (k'.table.get r).name := by
  have hinj : Function.Injective fun p : Option Nat => some (p.elim 0 (· + 1)) := by
    rintro (_ | p) (_ | q) heq
    · rfl
    · exact nomatch heq
    · exact nomatch heq
    · exact congrArg some (Nat.succ.inj (Option.some.inj heq))
  have hwalk : d.SameTree d' → k.table.walk 0 = k'.table.walk 0 := fun hsame => by
    rw [h.walk, h'.walk, hsame.length_eq]
  rw [← and_iff_right_of_imp hwalk, Document.SameTree, ← (List.map_injective_iff.mpr hinj).eq_iff,
    ← h.map_parent_walk, ← h'.map_parent_walk, ← h.map_name_walk, ← h'.map_name_walk]
  refine and_congr_right fun heq => ?_
  rw [← heq, List.map_inj_left, List.map_inj_left]
  exact forall₂_and.symm

end Linking

end PagePartials
