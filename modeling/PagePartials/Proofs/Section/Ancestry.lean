import PagePartials.Proofs.Section.Adding
import PagePartials.Proofs.Section.Walking
import Mathlib.Logic.Relation
import Mathlib.Data.Finset.Card

/-!
# Sections under each other

Which section stands under which follows from the links to the parents alone. Where these never
lead back to where they started, every way up ends, and the way down ends too: each section stands
under more sections than its parent does, and there are only so many. A walk is then the end of a
loop that needs no bound, and meets every section under the one it starts from once.

Adding a section leads in a circle just where the section that receives it stands under it. So a
tree built by additions that avoid this is a forest at every moment.

## Main definitions

* `SectionTable.ChildOf t x p`: `p` is the parent of `x`
* `SectionTable.Under t x a`: `x` is `a`, or stands somewhere under it
* `SectionTable.IsAcyclic t`: no section stands under itself
* `SectionTable.climb t n x`: the section met after `n` links to parents
* `SectionTable.Visits t stack rs`: from the stack, the loop of a walk meets `rs` and ends
* `SectionTable.IsForest t`: every way up ends, and so does every walk
* `SectionTable.KeepsApart t m`: the move adds no section to one that stands under it

## Main results

* `SectionTable.IsAcyclic.addChild`: an addition that keeps apart leads in no circle
* `SectionTable.IsAcyclic.isForest`: a well linked table without circles is a forest
* `SectionTable.IsForest.mem_walk`, `SectionTable.IsForest.nodup_walk`: what a walk meets
* `SectionTable.exists_makeAll_wellLinked`: every table that is built one move after the other
-/

namespace PagePartials

namespace SectionTable

open Relation

variable {t t' : SectionTable} {a b c p r x y : Ref} {m : Move} {ms : List Move}
  {stack rs qs : List Ref}

/-! ## The way up -/

/-- The one section is the parent of the other. -/
def ChildOf (t : SectionTable) (x p : Ref) : Prop := (t.get x).parent = some p

/-- The section is the other one, or stands somewhere under it. -/
def Under (t : SectionTable) (x a : Ref) : Prop := ReflTransGen t.ChildOf x a

/-- No section stands under itself. -/
def IsAcyclic (t : SectionTable) : Prop := ∀ x, ¬ TransGen t.ChildOf x x

/-- The section met after the given number of links to parents. -/
def climb (t : SectionTable) : Nat → Ref → Option Ref
  | 0, x => some x
  | n + 1, x => (t.get x).parent.bind (t.climb n)

theorem childOf_rightUnique (t : SectionTable) : Relator.RightUnique t.ChildOf := by
  intro x p q hp hq
  exact Option.some.inj (hp.symm.trans hq)

theorem climb_succ_of_childOf (h : t.ChildOf x p) (n : Nat) : t.climb (n + 1) x = t.climb n p := by
  rw [climb, h]
  rfl

/-- What a section stands under is met on the way up from it. -/
theorem exists_climb_of_under (h : t.Under x a) : ∃ n, t.climb n x = some a := by
  induction h using ReflTransGen.head_induction_on with
  | refl => exact ⟨0, rfl⟩
  | head hxy _ ih =>
    obtain ⟨n, hn⟩ := ih
    exact ⟨n + 1, (climb_succ_of_childOf hxy n).trans hn⟩

theorem climb_add_of_eq_none {n : Nat} (h : t.climb n x = none) (k : Nat) :
    t.climb (n + k) x = none := by
  induction n generalizing x with
  | zero => exact nomatch h
  | succ n ih =>
    rw [Nat.succ_add, climb]
    cases hp : (t.get x).parent with
    | none => rfl
    | some p => exact ih ((climb_succ_of_childOf hp n).symm.trans h)

/-- Where the way up ends, a section that is not met on it does not stand above. -/
theorem not_under_of_climb {n : Nat} (hn : t.climb n x = none)
    (hne : ∀ k < n, t.climb k x ≠ some a) : ¬ t.Under x a := by
  intro h
  obtain ⟨k, hk⟩ := exists_climb_of_under h
  by_cases hlt : k < n
  · exact hne k hlt hk
  · obtain ⟨j, rfl⟩ := Nat.exists_eq_add_of_le (Nat.le_of_not_lt hlt)
    rw [climb_add_of_eq_none hn] at hk
    exact nomatch hk

/-! ## Circles -/

theorem IsAcyclic.empty : SectionTable.empty.IsAcyclic := by
  intro x hx
  obtain ⟨p, hp, -⟩ := TransGen.head'_iff.mp hx
  exact absurd hp (by simp [ChildOf, SectionTable.empty, get, LinkedSection.bare])

theorem IsAcyclic.push (h : t.IsAcyclic) (s : Section) : (t.push (.single s)).IsAcyclic := by
  have hchild : (t.push (.single s)).ChildOf = t.ChildOf := by
    funext x p
    rw [ChildOf, (links_push_single t s x).1]
    rfl
  rw [IsAcyclic, hchild]
  exact h

theorem childOf_addChild (hp : p < t.size) (hc : c < t.size) (ht : t.addChild p c = .ok t')
    (h : t'.ChildOf x y) : x = c ∧ y = p ∨ t.ChildOf x y := by
  rw [ChildOf, get_addChild hp hc ht] at h
  by_cases hx : x = c
  · subst hx
    exact .inl ⟨rfl, by simpa [adding, eq_comm] using h⟩
  · exact .inr (by simpa [adding, hx, ChildOf] using h)

/-- A way up after `c` has become a child of `p` was there before, or passes through the new
link. -/
theorem transGen_addChild (hp : p < t.size) (hc : c < t.size) (ht : t.addChild p c = .ok t')
    (hapart : ¬ t.Under p c) (h : TransGen t'.ChildOf x y) :
    TransGen t.ChildOf x y ∨ t.Under x c ∧ t.Under p y := by
  induction h with
  | single hxy =>
    rcases childOf_addChild hp hc ht hxy with ⟨rfl, rfl⟩ | hxy
    · exact .inr ⟨.refl, .refl⟩
    · exact .inl (.single hxy)
  | tail _ hyz ih =>
    rcases childOf_addChild hp hc ht hyz with ⟨rfl, rfl⟩ | hyz
    -- The new link is taken once: a way on from `p` does not lead back to `c`.
    · rcases ih with hxy | ⟨-, hpy⟩
      · exact .inr ⟨hxy.to_reflTransGen, .refl⟩
      · exact absurd hpy hapart
    · rcases ih with hxy | ⟨hxc, hpy⟩
      · exact .inl (hxy.tail hyz)
      · exact .inr ⟨hxc, hpy.tail hyz⟩

/-- **An addition leads in no circle** if the section that receives the other one does not stand
under it. -/
theorem IsAcyclic.addChild (h : t.IsAcyclic) (hp : p < t.size) (hc : c < t.size)
    (ht : t.addChild p c = .ok t') (hapart : ¬ t.Under p c) : t'.IsAcyclic := by
  intro x hx
  rcases transGen_addChild hp hc ht hapart hx with hx | ⟨hxc, hpx⟩
  · exact h x hx
  · exact hapart (hpx.trans hxc)

/-! ## How deep a section stands -/

open Classical in
/-- How many sections a section stands under. -/
noncomputable def level (t : SectionTable) (x : Ref) : Nat :=
  ((Finset.range t.size).filter fun a => TransGen t.ChildOf x a).card

theorem level_le_size (t : SectionTable) (x : Ref) : t.level x ≤ t.size := by
  classical
  unfold level
  exact (Finset.card_filter_le _ _).trans_eq (Finset.card_range _)

namespace WellLinked

theorem childOf_of_mem (h : t.WellLinked) (hx : x ∈ (t.get p).children) : t.ChildOf x p :=
  (h.mem_children_iff x p).mp hx

theorem lt_of_childOf (h : t.WellLinked) (hx : t.ChildOf x p) : p < t.size :=
  lt_of_mem_children ((h.mem_children_iff x p).mpr hx)

/-- A section stands one level deeper than its parent, or more. -/
theorem level_lt (h : t.WellLinked) (hacyclic : t.IsAcyclic) (hx : t.ChildOf x p) :
    t.level p < t.level x := by
  classical
  unfold level
  refine Finset.card_lt_card ?_
  rw [Finset.ssubset_iff_of_subset]
  · refine ⟨p, ?_, ?_⟩
    · rw [Finset.mem_filter, Finset.mem_range]
      exact ⟨h.lt_of_childOf hx, .single hx⟩
    · rw [Finset.mem_filter]
      exact fun hp => hacyclic p hp.2
  · intro a ha
    rw [Finset.mem_filter] at ha ⊢
    exact ⟨ha.1, .head hx ha.2⟩

/-- Every way up ends. -/
theorem exists_climb_eq_none (h : t.WellLinked) (hacyclic : t.IsAcyclic) (x : Ref) :
    ∃ n, t.climb n x = none := by
  induction hn : t.level x using Nat.strongRecOn generalizing x with
  | ind n ih =>
    cases hp : (t.get x).parent with
    | none => exact ⟨1, by rw [climb, hp]; rfl⟩
    | some p =>
      obtain ⟨k, hk⟩ := ih (t.level p) (hn ▸ h.level_lt hacyclic hp) p rfl
      exact ⟨k + 1, (climb_succ_of_childOf hp k).trans hk⟩

end WellLinked

/-! ## The way down

`visit` stops when its steps are used up. Here the loop has no bound: the stack empties, or the
loop goes on for ever and there are no sections that it visits in all. -/

/-- From the stack of sections to visit, the loop meets these sections and ends. -/
inductive Visits (t : SectionTable) : List Ref → List Ref → Prop
  | done : Visits t [] []
  | step {r : Ref} {stack rs : List Ref} (h : Visits t ((t.get r).children ++ stack) rs) :
      Visits t (r :: stack) (r :: rs)

namespace Visits

theorem append (h : t.Visits stack rs) {stack' : List Ref} (h' : t.Visits stack' qs) :
    t.Visits (stack ++ stack') (rs ++ qs) := by
  induction h with
  | done => exact h'
  | step _ ih => exact .step (List.append_assoc .. ▸ ih)

/-- If the loop ends from each section of a stack, it ends from the stack. -/
theorem exists_of_forall (h : ∀ x ∈ stack, ∃ rs, t.Visits [x] rs) : ∃ rs, t.Visits stack rs := by
  induction stack with
  | nil => exact ⟨[], .done⟩
  | cons x stack ih =>
    obtain ⟨rs, hrs⟩ := h x List.mem_cons_self
    obtain ⟨qs, hqs⟩ := ih fun y hy => h y (List.mem_cons_of_mem _ hy)
    exact ⟨rs ++ qs, hrs.append hqs⟩

/-- Where the loop ends, `visit` meets the same sections, given enough steps. -/
theorem visit_eq (h : t.Visits stack rs) {fuel : Nat} (hfuel : rs.length ≤ fuel) :
    t.visit fuel stack = rs := by
  induction h generalizing fuel with
  | done => exact visit_nil t fuel
  | step _ ih =>
    obtain ⟨fuel, rfl⟩ := Nat.exists_eq_add_of_le' (Nat.one_le_of_lt hfuel)
    rw [visit_cons, ih (Nat.le_of_succ_le_succ hfuel)]

/-- The loop meets what stands under the sections of the stack. -/
theorem mem_iff (h : t.Visits stack rs) (hlinked : t.WellLinked) :
    a ∈ rs ↔ ∃ x ∈ stack, t.Under a x := by
  induction h with
  | done => simp
  | @step r stack rs _ ih =>
    rw [List.mem_cons, ih]
    constructor
    · rintro (rfl | ⟨x, hx, hax⟩)
      · exact ⟨a, List.mem_cons_self, .refl⟩
      · rcases List.mem_append.mp hx with hx | hx
        · exact ⟨r, List.mem_cons_self, hax.tail (hlinked.childOf_of_mem hx)⟩
        · exact ⟨x, List.mem_cons_of_mem _ hx, hax⟩
    · rintro ⟨x, hx, hax⟩
      rcases List.mem_cons.mp hx with rfl | hx
      · rcases ReflTransGen.cases_tail hax with rfl | ⟨y, hay, hyx⟩
        · exact .inl rfl
        · exact .inr ⟨y, List.mem_append_left _ ((hlinked.mem_children_iff y x).mpr hyx), hay⟩
      · exact .inr ⟨x, List.mem_append_right _ hx, hax⟩

end Visits

/-- Nothing stands under both sections. -/
def Apart (t : SectionTable) (x y : Ref) : Prop := ∀ a, t.Under a x → ¬ t.Under a y

namespace WellLinked

/-- Without circles the loop ends from each section. -/
theorem exists_visits_singleton (h : t.WellLinked) (hacyclic : t.IsAcyclic) (x : Ref) :
    ∃ rs, t.Visits [x] rs := by
  -- A section has fewer levels below it than its parent, so its children can be visited first.
  induction hn : t.size - t.level x using Nat.strongRecOn generalizing x with
  | ind n ih =>
    have hchildren : ∃ rs, t.Visits (t.get x).children rs := by
      refine Visits.exists_of_forall fun y hy => ?_
      have hlt := h.level_lt hacyclic (h.childOf_of_mem hy)
      have hle := t.level_le_size y
      exact ih (t.size - t.level y) (by omega) y rfl
    obtain ⟨rs, hrs⟩ := hchildren
    exact ⟨x :: rs, .step (by rwa [List.append_nil])⟩

theorem not_under_of_childOf (hacyclic : t.IsAcyclic) (hx : t.ChildOf x p) : ¬ t.Under p x := by
  intro hpx
  exact hacyclic x (.head' hx hpx)

/-- Of two children of one section, neither stands under the other. -/
theorem not_under_of_childOf_same (hacyclic : t.IsAcyclic) (hx : t.ChildOf x p) (hy : t.ChildOf y p)
    (hne : x ≠ y) : ¬ t.Under x y := by
  intro hxy
  rcases ReflTransGen.cases_head hxy with rfl | ⟨q, hq, hqy⟩
  · exact hne rfl
  · rw [t.childOf_rightUnique hq hx] at hqy
    exact not_under_of_childOf hacyclic hy hqy

/-- Two children of one section stand apart. -/
theorem apart_children (hacyclic : t.IsAcyclic) (hx : t.ChildOf x p) (hy : t.ChildOf y p)
    (hne : x ≠ y) : t.Apart x y := by
  intro a hax hay
  -- Of two sections with something under both, one stands under the other.
  rcases ReflTransGen.total_of_right_unique t.childOf_rightUnique hax hay with hxy | hyx
  · exact not_under_of_childOf_same hacyclic hx hy hne hxy
  · exact not_under_of_childOf_same hacyclic hy hx hne.symm hyx

theorem pairwise_apart_children (h : t.WellLinked) (hacyclic : t.IsAcyclic) (r : Ref) :
    (t.get r).children.Pairwise t.Apart :=
  (h.nodup_children r).imp_of_mem fun hx hy hne =>
    apart_children hacyclic (h.childOf_of_mem hx) (h.childOf_of_mem hy) hne

end WellLinked

/-- The loop meets no section twice if the sections of the stack stand apart. -/
theorem Visits.nodup (h : t.Visits stack rs) (hlinked : t.WellLinked) (hacyclic : t.IsAcyclic)
    (hstack : stack.Pairwise t.Apart) : rs.Nodup := by
  induction h with
  | done => exact List.nodup_nil
  | @step r stack rs hrs ih =>
    obtain ⟨hr, hrest⟩ := List.pairwise_cons.mp hstack
    refine List.nodup_cons.mpr ⟨?_, ih ?_⟩
    · rw [hrs.mem_iff hlinked]
      rintro ⟨x, hx, hrx⟩
      rcases List.mem_append.mp hx with hx | hx
      · exact WellLinked.not_under_of_childOf hacyclic (hlinked.childOf_of_mem hx) hrx
      · exact hr x hx r .refl hrx
    · refine List.pairwise_append.mpr ⟨hlinked.pairwise_apart_children hacyclic r, hrest, ?_⟩
      intro x hx y hy a hax
      exact hr y hy a (hax.tail (hlinked.childOf_of_mem hx))

/-! ## Forests -/

/-- Every way up ends at a section without a parent, and every walk ends, having met all that it
visits. -/
structure IsForest (t : SectionTable) : Prop where
  climb_ends : ∀ x, ∃ n, t.climb n x = none
  walk_ends : ∀ r, t.Visits (t.get r).children (t.walk r)

/-- The loop of a walk meets no more sections than there are. -/
theorem Visits.length_le_size (hrs : t.Visits (t.get r).children rs) (h : t.WellLinked)
    (hacyclic : t.IsAcyclic) : rs.length ≤ t.size := by
  have hnodup := hrs.nodup h hacyclic (h.pairwise_apart_children hacyclic r)
  have hrange : rs ⊆ List.range t.size := by
    intro a ha
    obtain ⟨x, hx, hax⟩ := (hrs.mem_iff h).mp ha
    obtain ⟨q, haq, -⟩ := TransGen.head'_iff.mp (.tail' hax (h.childOf_of_mem hx))
    exact List.mem_range.mpr (lt_of_parent haq)
  exact (hnodup.subperm hrange).length_le.trans_eq List.length_range

/-- **A well linked table without circles is a forest.** -/
theorem IsAcyclic.isForest (hacyclic : t.IsAcyclic) (h : t.WellLinked) : t.IsForest where
  climb_ends := h.exists_climb_eq_none hacyclic
  walk_ends r := by
    obtain ⟨rs, hrs⟩ : ∃ rs, t.Visits (t.get r).children rs :=
      Visits.exists_of_forall fun x _ => h.exists_visits_singleton hacyclic x
    have hbound : rs.length ≤ t.walkBound := by
      by_cases hnil : (t.get r).children = []
      · rw [hnil] at hrs
        cases hrs
        exact Nat.zero_le _
      · exact (hrs.length_le_size h hacyclic).trans (size_lt_walkBound hnil).le
    rw [walk, hrs.visit_eq hbound]
    exact hrs

/-- In a circle every way up goes on. -/
theorem climb_ne_none (h : TransGen t.ChildOf x x) (n : Nat) : t.climb n x ≠ none := by
  induction n generalizing x with
  | zero => exact Option.some_ne_none x
  | succ n ih =>
    obtain ⟨y, hxy, hyx⟩ := TransGen.head'_iff.mp h
    rw [climb_succ_of_childOf hxy]
    exact ih (.tail' hyx hxy)

theorem IsForest.isAcyclic (h : t.IsForest) : t.IsAcyclic := by
  intro x hx
  obtain ⟨n, hn⟩ := h.climb_ends x
  exact climb_ne_none hx n hn

/-- There is no circle if every way up is at its end after as many links as there are sections. -/
theorem IsAcyclic.of_climb (h : ∀ x < t.size, t.climb t.size x = none) : t.IsAcyclic := by
  intro x hx
  obtain ⟨p, hp, -⟩ := TransGen.head'_iff.mp hx
  exact climb_ne_none hx t.size (h x (lt_of_parent hp))

/-- A walk meets the sections under the one it starts from. -/
theorem IsForest.mem_walk (h : t.IsForest) (hlinked : t.WellLinked) :
    a ∈ t.walk r ↔ TransGen t.ChildOf a r := by
  rw [(h.walk_ends r).mem_iff hlinked, TransGen.tail'_iff]
  constructor
  · rintro ⟨x, hx, hax⟩
    exact ⟨x, hax, hlinked.childOf_of_mem hx⟩
  · rintro ⟨x, hax, hx⟩
    exact ⟨x, (hlinked.mem_children_iff x r).mpr hx, hax⟩

/-- A walk meets no section twice. -/
theorem IsForest.nodup_walk (h : t.IsForest) (hlinked : t.WellLinked) : (t.walk r).Nodup :=
  (h.walk_ends r).nodup hlinked h.isAcyclic (hlinked.pairwise_apart_children h.isAcyclic r)

/-! ## Building a forest -/

/-- The move adds no section to itself or to one that stands under it. -/
def KeepsApart (t : SectionTable) : Move → Prop
  | .create _ => True
  | .add parent child => ¬ t.Under parent child

/-- The way up from the section that receives the other one ends, and does not meet it. -/
def ClimbsApart (t : SectionTable) : Move → Prop
  | .create _ => True
  | .add parent child =>
    t.climb t.size parent = none ∧ ∀ n < t.size, t.climb n parent ≠ some child

instance decidableClimbsApart (t : SectionTable) : ∀ m, Decidable (t.ClimbsApart m)
  | .create _ => .isTrue trivial
  | .add parent child => inferInstanceAs (Decidable
      (t.climb t.size parent = none ∧ ∀ n < t.size, t.climb n parent ≠ some child))

theorem ClimbsApart.keepsApart (h : t.ClimbsApart m) : t.KeepsApart m := by
  cases m with
  | create => exact trivial
  | add p c => exact not_under_of_climb h.1 h.2

theorem exists_make_isAcyclic (h : t.WellLinked ∧ t.IsAcyclic) (hm : t.Reaches m ∧ t.KeepsApart m) :
    ∃ t', t.make m = .ok t' ∧ t'.WellLinked ∧ t'.IsAcyclic := by
  cases m with
  | create s => exact ⟨_, rfl, h.1.push s, h.2.push s⟩
  | add p c =>
    obtain ⟨⟨hp, hc⟩, hapart⟩ := hm
    obtain ⟨t', ht'⟩ := h.1.exists_addChild p c
    exact ⟨t', ht', h.1.addChild hp hc ht', h.2.addChild hp hc ht' hapart⟩

/-- Moves between sections of a table are all made, and give a well linked table; it has no circles
if each addition keeps apart. -/
theorem exists_makeAll_of_reaches (hms : empty.EachMeets Reaches ms) :
    ∃ t, empty.makeAll ms = .ok t ∧ t.WellLinked ∧
      (empty.EachMeets KeepsApart ms → t.IsAcyclic) := by
  obtain ⟨t, ht, hlinked⟩ :=
    exists_makeAll (fun _ _ hu hm => hu.exists_make hm) WellLinked.empty hms
  refine ⟨t, ht, hlinked, fun hapart => ?_⟩
  obtain ⟨t', ht', -, hacyclic⟩ := exists_makeAll
    (fun _ _ hu hm => exists_make_isAcyclic hu hm) ⟨.empty, .empty⟩ (hms.and hapart)
  obtain rfl : t = t' := Except.ok.inj (ht.symm.trans ht')
  exact hacyclic

/-- **A tree stays well linked**: however new sections are made and added to each other, no
addition fails, and the links of the sections agree. It stays a forest if in addition no section is
ever added to itself or to one that stands under it. -/
theorem exists_makeAll_wellLinked (ms : List Move) (hms : empty.EachMeets Reaches ms) :
    ∃ t, empty.makeAll ms = .ok t ∧ t.WellLinked ∧
      (empty.EachMeets KeepsApart ms → t.IsForest) := by
  obtain ⟨t, ht, hlinked, hacyclic⟩ := exists_makeAll_of_reaches hms
  exact ⟨t, ht, hlinked, fun hapart => (hacyclic hapart).isForest hlinked⟩

/-- Three sections: the third is put into the second, twice, then next to it, and then the second
into the third. -/
def regrouping : List Move :=
  [.create (.named "root".toList), .create (.named "a".toList), .create (.named "b".toList),
    .add 0 1, .add 1 2, .add 1 2, .add 0 2, .add 2 1]

theorem exists_makeAll_regrouping : empty.EachMeets Reaches regrouping ∧
    empty.EachMeets KeepsApart regrouping ∧
    ∃ t, empty.makeAll regrouping = .ok t ∧ t.WellLinked ∧ t.IsForest := by
  have hreaches : empty.EachMeets Reaches regrouping := by decide
  have hapart : empty.EachMeets KeepsApart regrouping :=
    EachMeets.imp (fun _ _ => ClimbsApart.keepsApart) (by decide)
  obtain ⟨t, ht, hlinked, hforest⟩ := exists_makeAll_wellLinked regrouping hreaches
  exact ⟨hreaches, hapart, t, ht, hlinked, hforest hapart⟩

/-- Four sections. The second is first put into itself, and then into the first, as is the third; the
fourth is put into the second. -/
def untangling : List Move :=
  [.create (.named "root".toList), .create (.named "a".toList), .create (.named "b".toList),
    .create (.named "c".toList), .add 1 1, .add 0 1, .add 0 2, .add 1 3]

/-- What comes of it: a forest, although there was a circle for a while. -/
def untangled : SectionTable where
  nodes :=
    [{ Section.named "root".toList with parent := none, children := [1, 2] },
      { Section.named "a".toList with parent := some 0, children := [3] },
      { Section.named "b".toList with parent := some 0, children := [] },
      { Section.named "c".toList with parent := some 1, children := [] }]

theorem reaches_untangling : empty.EachMeets Reaches untangling := by decide

theorem makeAll_untangling : empty.makeAll untangling = .ok untangled := by decide

theorem isAcyclic_untangled : untangled.IsAcyclic := .of_climb (by decide)

end SectionTable

end PagePartials
