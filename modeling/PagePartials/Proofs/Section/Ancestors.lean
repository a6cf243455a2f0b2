import PagePartials.Proofs.Section.Ancestry

/-!
# The sections around a section

The way up from a section is bounded by the size of the table. Where the links lead in no circle the
bound is never reached, so the sections around a section are those around its parent and then the
parent, but for a parent that is a root: that one gives no part of the path. The sections met in this
way are all those that the section stands under, roots left out.

## Main results

* `SectionTable.WellLinked.childOf_wellFounded`: what holds of a section if it holds of its parent,
  holds of all sections
* `SectionTable.WellLinked.ancestors_of_childOf`: the sections around a section, from its parent's
* `SectionTable.WellLinked.mem_ancestors`: which sections are around a section
-/

namespace PagePartials

namespace SectionTable

open Relation

variable {t : SectionTable} {a p x : Ref}

theorem isRoot_eq_true_iff : t.isRoot x = true ↔ (t.get x).parent = none := by
  rw [isRoot, Option.isNone_iff_eq_none]

theorem not_isRoot_of_childOf (hx : t.ChildOf x p) : t.isRoot x = false := by
  rw [isRoot, show (t.get x).parent = some p from hx]
  rfl

/-- A root stands under nothing. -/
theorem not_transGen_of_isRoot (hx : t.isRoot x = true) : ¬ TransGen t.ChildOf x a := by
  intro h
  obtain ⟨p, hp, -⟩ := TransGen.head'_iff.mp h
  exact absurd hx (by simp [not_isRoot_of_childOf hp])

/-- A section stands under its parent and under what that stands under. -/
theorem transGen_iff_of_childOf (hx : t.ChildOf x p) :
    TransGen t.ChildOf x a ↔ a = p ∨ TransGen t.ChildOf p a := by
  rw [TransGen.head'_iff, ← reflTransGen_iff_eq_or_transGen]
  constructor
  · rintro ⟨q, hq, hqa⟩
    rwa [t.childOf_rightUnique hx hq]
  · exact fun h => ⟨p, hx, h⟩

theorem ancestors_of_parent_eq_none (hx : (t.get x).parent = none) : t.ancestors x = [] := by
  have hchain (fuel : Nat) : t.chain fuel none = [] := by cases fuel <;> rfl
  rw [ancestors, hx, hchain, List.reverse_nil]

namespace WellLinked

/-- Without circles, what holds of a section if it holds of its parent, holds of all sections. -/
theorem childOf_wellFounded (h : t.WellLinked) (hacyclic : t.IsAcyclic) :
    WellFounded fun p x => t.ChildOf x p :=
  Subrelation.wf (fun hx => h.level_lt hacyclic hx) (measure t.level).wf

/-- The way up from a section is at its end after as many steps as the section has levels. -/
theorem chain_succ (h : t.WellLinked) (hacyclic : t.IsAcyclic) {fuel : Nat}
    (hfuel : t.level x ≤ fuel) :
    t.chain (fuel + 1) (t.get x).parent = t.chain fuel (t.get x).parent := by
  induction fuel generalizing x with
  | zero =>
    -- At level 0 there is no parent.
    cases hp : (t.get x).parent with
    | none => rfl
    | some p =>
      have := h.level_lt hacyclic hp
      omega
  | succ fuel ih =>
    cases hp : (t.get x).parent with
    | none => rfl
    | some p =>
      have hlevel := h.level_lt hacyclic hp
      rw [chain, chain, ih (by omega)]

/-- **The sections around a section** are those around its parent, and the parent unless that is a
root. -/
theorem ancestors_of_childOf (h : t.WellLinked) (hacyclic : t.IsAcyclic) (hx : t.ChildOf x p) :
    t.ancestors x = if t.isRoot p then [] else t.ancestors p ++ [p] := by
  have hlt := h.level_lt hacyclic hx
  have hle := t.level_le_size x
  obtain ⟨fuel, hsize⟩ := Nat.exists_eq_add_of_le' (show 1 ≤ t.size by omega)
  rw [ancestors, ancestors, show (t.get x).parent = some p from hx, hsize, chain,
    h.chain_succ hacyclic (by omega)]
  split
  · rfl
  · exact List.reverse_cons

/-- **Which sections are around a section**: those it stands under, but for roots. -/
theorem mem_ancestors (h : t.WellLinked) (hacyclic : t.IsAcyclic) :
    a ∈ t.ancestors x ↔ TransGen t.ChildOf x a ∧ t.isRoot a = false := by
  induction x using (h.childOf_wellFounded hacyclic).induction with
  | _ x ih =>
    cases hp : (t.get x).parent with
    | none =>
      have hroot := not_transGen_of_isRoot (a := a) (isRoot_eq_true_iff.mpr hp)
      simp [ancestors_of_parent_eq_none hp, hroot]
    | some p =>
      have hx : t.ChildOf x p := hp
      rw [h.ancestors_of_childOf hacyclic hx, transGen_iff_of_childOf hx]
      by_cases hroot : t.isRoot p = true
      · have htop := not_transGen_of_isRoot (a := a) hroot
        rw [if_pos hroot, or_iff_left htop]
        constructor
        · exact fun ha => absurd ha List.not_mem_nil
        · rintro ⟨rfl, ha⟩
          exact absurd hroot (by simp [ha])
      · rw [if_neg hroot, List.mem_append, List.mem_singleton, ih p hx]
        have hp' : t.isRoot p = false := by simpa using hroot
        constructor
        · rintro (ha | rfl)
          · exact ⟨.inr ha.1, ha.2⟩
          · exact ⟨.inl rfl, hp'⟩
        · rintro ⟨rfl | ha, ha'⟩
          · exact .inr rfl
          · exact .inl ⟨ha, ha'⟩

end WellLinked

end SectionTable

end PagePartials
