import PagePartials.Proofs.Section.Adding

/-!
# One section added to another, step by step

A section is added to another one in three steps: the parent it has, if that is another section,
takes it from its list of children; the new parent puts it on its own; and it points to the new
parent. Each step changes the table by itself, and a call that fails on the way leaves what the
steps before have changed. But only the first step fails, on a section that its parent does not
list, and then it has not changed anything yet. A call is thus made in full or not at all, whatever
the links tell: they may disagree, lists may hold a section twice, and a section may be added to
itself.

A call that has been made leaves nothing to do for another one like it.

## Main definitions

* `Relinking`: computations that change a table as they go, and may fail on the way
* `Relinking.addChild p c`: the three steps that make `c` a child of `p`
* `SectionTable.Stranded t p c`: `c` would have to leave a parent that does not list it
* `SectionTable.Adds t p c t'`: `t'` is `t` with `c` added to `p`, link by link

## Main results

* `Relinking.run_addChild`: the steps come to what `SectionTable.addChild` gives
* `SectionTable.addChild_eq_error_iff`: when a call fails
* `SectionTable.adds_addChild`: what a call changes, and what not
* `SectionTable.addChild_eq_self`: a call changes nothing where both links are there
* `SectionTable.addChild_atomic`: a call is made in full or not at all, and only once
-/

namespace PagePartials

/-! ## The steps -/

/-- A computation on a table. It changes the table as it goes, and when it fails the table stays as
it is by then. -/
abbrev Relinking := EStateM LinkError SectionTable

namespace Relinking

/-- Takes the first occurrence of `c` from the list of children of `p`. -/
def delist (p c : Ref) : Relinking Unit := do
  let t ← get
  if c ∈ (t.get p).children then
    set (t.update p fun s => { s with children := s.children.erase c })
  else
    throw .notListed

/-- Takes `c` from the list of its parent, if it has one other than `p`. -/
def depart (p c : Ref) : Relinking Unit := do
  let t ← get
  match (t.get c).parent with
  | none => pure ()
  | some old => if old = p then pure () else delist old c

/-- Puts `c` at the end of the list of children of `p`, unless it is there. -/
def enlist (p c : Ref) : Relinking Unit :=
  modify fun t => t.enlist p c

/-- Makes `c` point to `p` as its parent. -/
def point (p c : Ref) : Relinking Unit :=
  modify fun t => t.update c fun s => { s with parent := some p }

/-- Makes `c` a child of `p`. -/
def addChild (p c : Ref) : Relinking Ref := do
  depart p c
  enlist p c
  point p c
  return c

variable {t : SectionTable} {p c old : Ref}

theorem run_delist (p c : Ref) (t : SectionTable) : (delist p c).run t =
    if c ∈ (t.get p).children then
      .ok () (t.update p fun s => { s with children := s.children.erase c })
    else .error .notListed t := by
  simp only [delist, EStateM.run_bind, EStateM.run_get]
  split <;> rfl

theorem run_depart_of_stays (h : ∀ old, (t.get c).parent = some old → old = p) :
    (depart p c).run t = .ok () t := by
  simp only [depart, EStateM.run_bind, EStateM.run_get]
  split
  next => rfl
  next old hold =>
    rw [if_pos (h old hold)]
    rfl

theorem run_depart_of_ne (hparent : (t.get c).parent = some old) (hold : old ≠ p) :
    (depart p c).run t = (delist old c).run t := by
  simp only [depart, EStateM.run_bind, EStateM.run_get, hparent, if_neg hold]

/-- The last two steps do not fail. -/
theorem run_addChild_of_ok {t' : SectionTable} (h : (depart p c).run t = .ok () t') :
    (addChild p c).run t = .ok c (t'.adopt p c) := by
  rw [addChild, EStateM.run_bind, h]
  rfl

theorem run_addChild_of_error {e : LinkError} {t' : SectionTable}
    (h : (depart p c).run t = .error e t') : (addChild p c).run t = .error e t' := by
  rw [addChild, EStateM.run_bind, h]

/-- **The steps one after the other** come to the table that the call gives, and where it fails they
leave the table as it was. -/
theorem run_addChild (p c : Ref) (t : SectionTable) : (addChild p c).run t =
    match t.addChild p c with
    | .ok t' => .ok c t'
    | .error e => .error e t := by
  unfold SectionTable.addChild
  cases hparent : (t.get c).parent with
  | none => exact run_addChild_of_ok (run_depart_of_stays (by simp [hparent]))
  | some old =>
    by_cases hold : old = p
    · simp only [if_pos hold]
      exact run_addChild_of_ok (run_depart_of_stays (by simp [hparent, hold]))
    · have hrun := (run_depart_of_ne hparent hold).trans (run_delist old c t)
      by_cases hmem : c ∈ (t.get old).children
      · simp only [if_neg hold, if_pos hmem]
        exact run_addChild_of_ok (hrun.trans (if_pos hmem))
      · simp only [if_neg hold, if_neg hmem]
        exact run_addChild_of_error (hrun.trans (if_neg hmem))

end Relinking

namespace SectionTable

variable {t t' : SectionTable} {p c r : Ref}

/-! ## When a call fails -/

/-- The section points to a parent, another one than `p`, that does not list it. -/
def Stranded (t : SectionTable) (p c : Ref) : Prop :=
  ∃ old ∈ (t.get c).parent, old ≠ p ∧ c ∉ (t.get old).children

instance decidableStranded : Decidable (t.Stranded p c) :=
  inferInstanceAs (Decidable (∃ old ∈ (t.get c).parent, old ≠ p ∧ c ∉ (t.get old).children))

theorem addChild_eq_error_iff : t.addChild p c = .error .notListed ↔ t.Stranded p c := by
  unfold addChild Stranded
  cases hparent : (t.get c).parent with
  | none => simp
  | some old =>
    by_cases hold : old = p
    · simp [hold]
    · by_cases hmem : c ∈ (t.get old).children <;> simp [hold, hmem]

/-! ## What a call changes -/

/-- `t'` is `t` once `c` has been added to `p`: `c` points to `p` and is listed by it, the parent
that `c` had before has lost the first occurrence of it, and nothing else is other than it was. -/
structure Adds (t : SectionTable) (p c : Ref) (t' : SectionTable) : Prop where
  size_eq : t'.size = t.size
  toSection_eq : ∀ x, (t'.get x).toSection = (t.get x).toSection
  parent_self : (t'.get c).parent = some p
  parent_of_ne : ∀ x, x ≠ c → (t'.get x).parent = (t.get x).parent
  children_of_mem : c ∈ (t.get p).children → (t'.get p).children = (t.get p).children
  children_of_notMem : c ∉ (t.get p).children → (t'.get p).children = (t.get p).children ++ [c]
  children_old : ∀ old, (t.get c).parent = some old → old ≠ p →
    ∃ before behind, c ∉ before ∧ (t.get old).children = before ++ c :: behind ∧
      (t'.get old).children = before ++ behind
  children_of_ne : ∀ x, x ≠ p → (t.get c).parent ≠ some x →
    (t'.get x).children = (t.get x).children

/-- **What a call that succeeds changes, and what not.** -/
theorem adds_addChild (hp : p < t.size) (hc : c < t.size) (h : t.addChild p c = .ok t') :
    t.Adds p c t' where
  size_eq := size_addChild h
  toSection_eq := toSection_addChild hp hc h
  parent_self := parent_addChild_self hp hc h
  parent_of_ne _ hx := parent_addChild_of_ne hp hc h hx
  children_of_mem hmem := by rw [get_addChild hp hc h]; simp [adding, hmem]
  children_of_notMem hmem := by rw [get_addChild hp hc h]; simp [adding, hmem]
  children_old old hparent hold := by
    have hmem : c ∈ (t.get old).children := by
      by_contra hmem
      have herr : t.addChild p c = .error .notListed :=
        addChild_eq_error_iff.mpr ⟨old, hparent, hold, hmem⟩
      cases herr.symm.trans h
    obtain ⟨before, behind, hfirst, hlist, herase⟩ := List.exists_erase_eq hmem
    refine ⟨before, behind, hfirst, hlist, ?_⟩
    rw [get_addChild hp hc h]
    simpa [adding, hold, hparent] using herase
  children_of_ne x hx hparent := by rw [get_addChild hp hc h]; simp [adding, hx, hparent]

/-- A section that is added to itself is its own parent and its own child. -/
example : addChild ⟨[.bare "a".toList]⟩ 0 0 =
    .ok ⟨[{ LinkedSection.bare "a".toList with parent := some 0, children := [0] }]⟩ := by
  decide

theorem Adds.mem_children (h : t.Adds p c t') : c ∈ (t'.get p).children := by
  by_cases hmem : c ∈ (t.get p).children
  · rwa [h.children_of_mem hmem]
  · rw [h.children_of_notMem hmem]
    exact List.mem_append_right _ (List.mem_singleton_self c)

/-! ## Calls that change nothing -/

theorem update_eq_self {f : LinkedSection → LinkedSection} (h : f (t.get r) = t.get r) :
    t.update r f = t := by
  have hnodes : t.nodes.modify r f = t.nodes := by
    refine List.ext_getElem? fun i => ?_
    rw [List.getElem?_modify]
    by_cases hi : r = i
    · subst hi
      cases hr : t.nodes[r]? with
      | none => simp
      | some s =>
        have hs : t.get r = s := by simp [get, hr]
        simpa [hs] using h
    · simp [hi]
  rw [update, hnodes]

/-- A call changes nothing where both links are there. -/
theorem addChild_eq_self (hparent : (t.get c).parent = some p) (hmem : c ∈ (t.get p).children) :
    t.addChild p c = .ok t := by
  have hpoint : t.update c (fun s => { s with parent := some p }) = t :=
    update_eq_self (by rw [← hparent])
  have hadopt : t.adopt p c = t := by rw [adopt_eq, enlist, if_pos hmem, hpoint]
  rw [addChild, hparent]
  exact (if_pos rfl).trans (congrArg Except.ok hadopt)

theorem Adds.addChild_again (h : t.Adds p c t') : t'.addChild p c = .ok t' :=
  addChild_eq_self h.parent_self h.mem_children

/-- **A call is made in full or not at all, and made again it changes nothing**, on any table. It
fails just on a section whose parent, another one than `p`, does not list it, and its steps then
leave the table as it was. -/
theorem addChild_atomic (hp : p < t.size) (hc : c < t.size) :
    (t.Stranded p c → t.addChild p c = .error .notListed ∧
      (Relinking.addChild p c).run t = .error .notListed t) ∧
    (¬ t.Stranded p c → ∃ t', t.addChild p c = .ok t' ∧
      (Relinking.addChild p c).run t = .ok c t' ∧ t.Adds p c t' ∧
      t'.addChild p c = .ok t' ∧ (Relinking.addChild p c).run t' = .ok c t') := by
  constructor
  · intro hstranded
    have herr := addChild_eq_error_iff.mpr hstranded
    exact ⟨herr, by rw [Relinking.run_addChild, herr]⟩
  · intro hstranded
    cases h : t.addChild p c with
    | error e =>
      cases e
      exact absurd (addChild_eq_error_iff.mp h) hstranded
    | ok t' =>
      have hadds := adds_addChild hp hc h
      have hagain := hadds.addChild_again
      refine ⟨t', rfl, ?_, hadds, hagain, ?_⟩
      · rw [Relinking.run_addChild, h]
      · rw [Relinking.run_addChild, hagain]

/-- Sections whose links disagree: the one at 1 lists the one at 3 twice and the one at 2, which
points elsewhere. -/
def tangled : SectionTable :=
  ⟨[.bare "a".toList, { LinkedSection.bare "b".toList with children := [3, 2, 3] },
    { LinkedSection.bare "c".toList with parent := some 0 },
    { LinkedSection.bare "d".toList with parent := some 1 }]⟩

/-- The section at 2 cannot be moved to the one at 1, which lists it. The one at 3 can be moved to
the one at 2, and is then still listed once where it came from. -/
theorem addChild_tangled :
    (tangled.Stranded 1 2 ∧ tangled.addChild 1 2 = .error .notListed ∧
      (Relinking.addChild 1 2).run tangled = .error .notListed tangled) ∧
    ¬ tangled.Stranded 2 3 ∧ ∃ t', tangled.addChild 2 3 = .ok t' ∧
      (Relinking.addChild 2 3).run tangled = .ok 3 t' ∧ tangled.Adds 2 3 t' ∧
      t'.addChild 2 3 = .ok t' ∧ (Relinking.addChild 2 3).run t' = .ok 3 t' :=
  ⟨⟨by decide, (addChild_atomic (by decide) (by decide)).1 (by decide)⟩,
    by decide, (addChild_atomic (by decide) (by decide)).2 (by decide)⟩

end SectionTable

end PagePartials
