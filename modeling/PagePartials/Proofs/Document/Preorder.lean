import PagePartials.Proofs.Document.Children

/-!
# The order of the sections

A page lists its sections in pre-order: each section, followed by all that stand inside it, in the
order of the sections right inside it, and then by those behind it. So what stands around a section
has a smaller number, and the sections inside a section, at whatever depth, are those with the
numbers right behind its own, as many as there are.

## Main results

* `Body.regions_eq_flatMap_subtree`: a body lists its regions one after the other, each with what
  stands inside it
* `Document.subtree_eq`: a region is followed by those right inside it, each with what stands inside
* `Document.lt_of_encloses`: what stands around a section comes before it
* `Document.encloses_iff`: what stands inside a section comes right behind it
-/

namespace PagePartials

namespace Body

variable {b : Body} {above : List Text} {parent : Option Nat} {next i j k : Nat} {g : Region}

/-- A body lists its regions one after the other, each with what stands inside it. -/
theorem regions_eq_flatMap_subtree (b : Body) (above : List Text) :
    b.regions above = (b.topRegions above).flatMap Region.subtree := by
  induction b with
  | nil => rfl
  | line _ rest ih => exact ih
  | nested name start inner stop rest _ ih =>
    rw [regions_nested, ih, topRegions, List.flatMap_cons]

/-- The section right around another one comes before it. -/
theorem lt_of_getElem?_parentsFrom (hk : (b.parentsFrom parent next)[j]? = some (some k))
    (hparent : ∀ q ∈ parent, q < next) : k < next + j := by
  induction b generalizing parent next j with
  | nil => simp [parentsFrom] at hk
  | line _ rest ih => exact ih hk hparent
  | nested _ _ inner _ rest ih₁ ih₂ =>
    cases j with
    | zero => exact hparent k (Option.some.inj hk)
    | succ j =>
      rw [parentsFrom, List.getElem?_cons_succ, List.getElem?_append, length_parentsFrom] at hk
      split at hk
      next =>
        have := ih₁ hk (by simp)
        omega
      next =>
        have := ih₂ hk fun q hq => by have := hparent q hq; omega
        omega

/-- The part of the list of parents that is about one section: as many entries as there are
sections before it, its own one, those of the sections inside it, and behind these nothing that
stands in the section or inside it. -/
theorem exists_parentsFrom_eq (hg : (b.regions above)[i]? = some g)
    (hparent : ∀ q ∈ parent, q < next) :
    ∃ front p behind, b.parentsFrom parent next = front ++ p ::
        (g.inner.parentsFrom (some (next + i)) (next + i + 1) ++ behind) ∧
      front.length = i ∧
      ∀ k, some k ∈ behind → k < next + i ∨ next + i + g.inner.count < k := by
  -- By induction on the body: the part is found in the part of the body that holds the section.
  induction b generalizing above parent next i with
  | nil => simp [regions] at hg
  | line _ rest ih => exact ih hg hparent
  | nested name start inner stop rest ih₁ ih₂ =>
    cases i with
    | zero =>
      obtain rfl := Option.some.inj hg
      refine ⟨[], parent, rest.parentsFrom parent (next + 1 + inner.count), rfl, rfl, ?_⟩
      intro k hk
      rcases mem_parentsFrom hk with h | ⟨_, h, hl, -⟩
      · exact .inl (by have := hparent k h.symm; omega)
      · obtain rfl := Option.some.inj h
        exact .inr (by show next + 0 + inner.count < k; omega)
    | succ i =>
      rw [getElem?_regions_nested_succ] at hg
      split at hg
      next hi =>
        have hinner : ∀ q ∈ some next, q < next + 1 := by simp
        obtain ⟨front, p, behind, heq, hfront, hbehind⟩ := ih₁ hg hinner
        refine ⟨parent :: front, p, behind ++ rest.parentsFrom parent (next + 1 + inner.count),
          ?_, by simp [hfront], fun k hk => ?_⟩
        · rw [parentsFrom, heq, show next + (i + 1) = next + 1 + i by omega]
          simp
        · rw [show next + (i + 1) = next + 1 + i by omega]
          rcases List.mem_append.mp hk with hk | hk
          · exact hbehind k hk
          -- What comes behind the body inside has later numbers than all that it holds.
          · have hlen := congrArg List.length heq
            simp only [List.length_append, List.length_cons, length_parentsFrom] at hlen
            rcases mem_parentsFrom hk with h | ⟨_, h, hl, -⟩
            · exact .inl (by have := hparent k h.symm; omega)
            · obtain rfl := Option.some.inj h
              exact .inr (by omega)
      next hi =>
        have hrest : ∀ q ∈ parent, q < next + 1 + inner.count := fun q hq => by
          have := hparent q hq
          omega
        obtain ⟨front, p, behind, heq, hfront, hbehind⟩ := ih₂ hg hrest
        have hnum : next + (i + 1) = next + 1 + inner.count + (i - inner.count) := by omega
        refine ⟨parent :: (inner.parentsFrom (some next) (next + 1) ++ front), p, behind, ?_, ?_, ?_⟩
        · rw [parentsFrom, heq, hnum]
          simp
        · simp [hfront]
          omega
        · rw [hnum]
          exact hbehind

end Body

namespace Document

variable {d : Document} {g : Body.Region} {i j : Nat}

/-- The page lists its outermost regions one after the other, each with what stands inside it. -/
theorem regions_eq (d : Document) :
    d.regions = (d.childRegions none).flatMap Body.Region.subtree := by
  rw [childRegions_none]
  exact d.body.regions_eq_flatMap_subtree []

/-- A region is followed by those right inside it, each with what stands inside it. -/
theorem subtree_eq (hg : d.regions[i]? = some g) :
    g.subtree = g :: (d.childRegions (some i)).flatMap Body.Region.subtree := by
  rw [childRegions_eq hg, ← Body.regions_eq_flatMap_subtree]
  rfl

theorem lt_of_parent (h : d.body.parents[j]? = some (some i)) : i < j := by
  have := Body.lt_of_getElem?_parentsFrom h (by simp)
  omega

/-- What stands around a section comes before it. -/
theorem lt_of_encloses (h : d.Encloses i j) : i < j := by
  induction h with
  | single hp => exact lt_of_parent hp
  | tail _ hp ih => exact ih.trans (lt_of_parent hp)

/-- The list of parents, cut around the sections inside one of them. -/
theorem exists_parents_eq (hg : d.regions[i]? = some g) :
    ∃ front p behind, d.body.parents = front ++ p ::
        (g.inner.parentsFrom (some i) (i + 1) ++ behind) ∧
      front.length = i ∧ ∀ k, some k ∈ behind → k < i ∨ i + g.inner.count < k := by
  have hnone : ∀ q ∈ (none : Option Nat), q < 0 := by simp
  obtain ⟨front, p, behind, heq, hfront, hbehind⟩ := Body.exists_parentsFrom_eq hg hnone
  rw [Nat.zero_add] at heq hbehind
  exact ⟨front, p, behind, heq, hfront, hbehind⟩

/-- Only sections inside a section stand right inside the section or one of those. -/
theorem le_of_parent {k : Nat} (hg : d.regions[i]? = some g)
    (h : d.body.parents[j]? = some (some k)) (hik : i ≤ k) (hk : k ≤ i + g.inner.count) :
    j ≤ i + g.inner.count := by
  obtain ⟨front, p, behind, heq, hfront, hbehind⟩ := exists_parents_eq hg
  have hkj := lt_of_parent h
  by_contra hj
  -- Otherwise the section comes behind all of those.
  have hmem : some k ∈ behind := by
    rw [heq, List.getElem?_append_right (by omega), List.getElem?_cons,
      if_neg (by omega), List.getElem?_append_right (by simp; omega)] at h
    exact List.mem_of_getElem? h
  have := hbehind k hmem
  omega

/-- Around each of the sections with the numbers right behind that of a section, as many as stand
inside it, there is that section or another one of them. -/
theorem exists_parent (hg : d.regions[i]? = some g) (hij : i < j) (hj : j ≤ i + g.inner.count) :
    ∃ k, d.body.parents[j]? = some (some k) ∧ i ≤ k := by
  obtain ⟨front, p, behind, heq, hfront, -⟩ := exists_parents_eq hg
  have hlt : j - i - 1 < (g.inner.parentsFrom (some i) (i + 1)).length := by
    rw [Body.length_parentsFrom]
    omega
  have hget : d.body.parents[j]? = (g.inner.parentsFrom (some i) (i + 1))[j - i - 1]? := by
    rw [heq, List.getElem?_append_right (by omega), List.getElem?_cons, if_neg (by omega),
      hfront, List.getElem?_append_left hlt]
  have hmem := List.getElem_mem hlt
  rw [List.getElem?_eq_getElem hlt] at hget
  rcases Body.mem_parentsFrom hmem with h | ⟨k, h, hl, -⟩
  · exact ⟨i, hget.trans (congrArg some h), Nat.le_refl i⟩
  · exact ⟨k, hget.trans (congrArg some h), by omega⟩

/-- **What stands inside a section comes right behind it**: it has the next numbers, as many as
there are sections inside. -/
theorem encloses_iff (hg : d.regions[i]? = some g) :
    d.Encloses i j ↔ i < j ∧ j ≤ i + g.inner.count := by
  constructor
  · intro h
    refine ⟨lt_of_encloses h, ?_⟩
    induction h with
    | single hp => exact le_of_parent hg hp (Nat.le_refl i) (by omega)
    | tail hik hp ih => exact le_of_parent hg hp (Nat.le_of_lt (lt_of_encloses hik)) ih
  -- From such a section the way up, through ever smaller numbers, ends at the section.
  · rintro ⟨hij, hj⟩
    induction j using Nat.strong_induction_on with
    | _ j ih =>
      obtain ⟨k, hk, hik⟩ := exists_parent hg hij hj
      have hkj := lt_of_parent hk
      rcases Nat.eq_or_lt_of_le hik with rfl | hik
      · exact .single hk
      · exact (ih k hkj hik (by omega)).tail hk

end Document

end PagePartials
