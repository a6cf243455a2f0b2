import PagePartials.Proofs.Section.Ancestors
import Mathlib.Data.Set.Card

/-!
# Walks in preorder

A walk takes sections from a stack and puts their children on it. What this lists is what a
recursion lists that goes through the sections one by one, and for each of them through its children
before it comes to the next: the one ends just where the other does, with the same sections, on
whatever links. Where the links lead in no circle both end, and meet every section under the one
that the walk starts from, once.

## Main definitions

* `SectionTable.Preorder t rs xs`: from the sections `rs` the recursion lists `xs`

## Main results

* `SectionTable.visits_iff_preorder`: the loop and the recursion list the same sections
* `SectionTable.IsForest.walk_eq_flatMap`: a walk goes through the children, each with its own walk
* `SectionTable.IsForest.iter_children`: going through the children with their walks is the walk
* `SectionTable.IsForest.count_children`: how many sections stand under a section
* `SectionTable.walk_meets_descendants`: walks over every forest that is built by additions
-/

namespace PagePartials

namespace SectionTable

open Relation

variable {t : SectionTable} {r s : Ref} {rs qs xs stack : List Ref} {ms : List Move}

/-! ## The recursion -/

/-- From the sections `rs` the recursion lists these: for each of them the section itself, and then
what it lists from the children. -/
inductive Preorder (t : SectionTable) : List Ref → List Ref → Prop
  | nil : Preorder t [] []
  | cons {r : Ref} {rs inside rest : List Ref} (hinside : Preorder t (t.get r).children inside)
      (hrest : Preorder t rs rest) : Preorder t (r :: rs) (r :: (inside ++ rest))

/-- The recursion goes through the one part of the sections and then through the other. -/
theorem Preorder.exists_of_append (h : t.Preorder (rs ++ qs) xs) :
    ∃ ys zs, t.Preorder rs ys ∧ t.Preorder qs zs ∧ xs = ys ++ zs := by
  induction rs generalizing xs with
  | nil => exact ⟨[], xs, .nil, h, rfl⟩
  | cons r rs ih =>
    cases h with
    | @cons _ _ inside _ hinside hrest =>
      obtain ⟨ys, zs, hys, hzs, rfl⟩ := ih hrest
      refine ⟨r :: (inside ++ ys), zs, .cons hinside hys, hzs, ?_⟩
      rw [List.cons_append, List.append_assoc]

/-- **The loop with a stack and the recursion list the same sections**, and the one ends just where
the other does. -/
theorem visits_iff_preorder : t.Visits stack rs ↔ t.Preorder stack rs := by
  constructor
  · intro h
    induction h with
    | done => exact .nil
    -- What the loop visits from the children and the stack below them, is in two parts.
    | step _ ih =>
      obtain ⟨inside, rest, hinside, hrest, rfl⟩ := ih.exists_of_append
      exact .cons hinside hrest
  · intro h
    induction h with
    | nil => exact .done
    | cons _ _ ihinside ihrest => exact .step (ihinside.append ihrest)

/-- From one stack the loop lists one thing only. -/
theorem Visits.unique (h : t.Visits stack rs) (h' : t.Visits stack qs) : rs = qs :=
  (h.visit_eq (Nat.le_max_left ..)).symm.trans (h'.visit_eq (Nat.le_max_right ..))

/-! ## Walks over a forest -/

namespace IsForest

/-- The given sections, each followed by its walk, are what the recursion lists from them. -/
theorem preorder_iter (h : t.IsForest) (rs : List Ref) : t.Preorder rs (t.iter rs) := by
  induction rs with
  | nil => exact .nil
  | cons r rs ih => exact .cons (visits_iff_preorder.mp (h.walk_ends r)) ih

/-- Going through the children of a section, each followed by its walk, is the walk from the
section. -/
theorem iter_children (h : t.IsForest) (r : Ref) : t.iter (t.get r).children = t.walk r :=
  (visits_iff_preorder.mpr (h.preorder_iter _)).unique (h.walk_ends r)

/-- **A walk goes through the children of a section**, each followed by its own walk. -/
theorem walk_eq_flatMap (h : t.IsForest) (r : Ref) :
    t.walk r = (t.get r).children.flatMap fun c => c :: t.walk c :=
  (h.iter_children r).symm

/-- How many sections there are under a section. -/
theorem count_children (h : t.IsForest) (hlinked : t.WellLinked) (r : Ref) :
    t.count (t.get r).children = {x | TransGen t.ChildOf x r}.ncard := by
  have hset : {x | TransGen t.ChildOf x r} = ((t.walk r).toFinset : Set Ref) := by
    ext x
    rw [Set.mem_ofPred_eq, List.coe_toFinset, Set.mem_ofPred_eq, h.mem_walk hlinked]
  rw [count, h.iter_children, hset, Set.ncard_coe_finset,
    List.toFinset_card_of_nodup (h.nodup_walk hlinked)]

/-- The sections with a section around them are those that the walk from there meets, unless it is a
root. -/
theorem mem_ancestors_iff (h : t.IsForest) (hlinked : t.WellLinked) {x : Ref} :
    s ∈ t.ancestors x ↔ x ∈ t.walk s ∧ t.isRoot s = false := by
  rw [hlinked.mem_ancestors h.isAcyclic, h.mem_walk hlinked]

end IsForest

/-- **Walks over every forest.** However a table was built by additions, if now no section stands
under itself, then the walk from each section ends. It goes through the children of the section,
each followed by its own walk, which is what the recursion lists from the children. It meets the
sections that the links to parents lead from to this one, each once and no others; if it is no root
these are the ones that have it around them. Going through the children, each with its walk, meets
the same sections in the same order, and counting them gives how many there are. -/
theorem walk_meets_descendants (hms : empty.EachMeets Reaches ms) (ht : empty.makeAll ms = .ok t)
    (hacyclic : t.IsAcyclic) (s : Ref) :
    t.Visits (t.get s).children (t.walk s) ∧
    t.Preorder (t.get s).children (t.walk s) ∧
    t.walk s = ((t.get s).children.flatMap fun c => c :: t.walk c) ∧
    (t.walk s).Nodup ∧
    (∀ x, x ∈ t.walk s ↔ TransGen t.ChildOf x s) ∧
    (∀ x, s ∈ t.ancestors x ↔ x ∈ t.walk s ∧ t.isRoot s = false) ∧
    t.iter (t.get s).children = t.walk s ∧
    t.count (t.get s).children = {x | TransGen t.ChildOf x s}.ncard := by
  obtain ⟨t', ht', hlinked, -⟩ := exists_makeAll_of_reaches hms
  obtain rfl : t' = t := Except.ok.inj (ht'.symm.trans ht)
  have hforest := hacyclic.isForest hlinked
  exact ⟨hforest.walk_ends s, visits_iff_preorder.mp (hforest.walk_ends s),
    hforest.walk_eq_flatMap s, hforest.nodup_walk hlinked, fun _ => hforest.mem_walk hlinked,
    fun _ => hforest.mem_ancestors_iff hlinked, hforest.iter_children s,
    hforest.count_children hlinked s⟩

theorem walk_untangled : empty.EachMeets Reaches untangling ∧
    empty.makeAll untangling = .ok untangled ∧ untangled.IsAcyclic ∧
    untangled.Preorder [1, 2] [1, 3, 2] ∧
    untangled.count [1, 2] = {x | TransGen untangled.ChildOf x 0}.ncard := by
  obtain ⟨-, hpreorder, -, -, -, -, -, hcount⟩ :=
    walk_meets_descendants reaches_untangling makeAll_untangling isAcyclic_untangled 0
  exact ⟨reaches_untangling, makeAll_untangling, isAcyclic_untangled, hpreorder, hcount⟩

end SectionTable

end PagePartials
