import PagePartials.Section.Table
import Mathlib.Data.List.Nodup

/-!
# Sections added to each other

A section is linked to its parent twice: it points to it, and is in its list of children. Adding a
section to another one takes up to three changes to these links, and each of them is made only
where it is needed. Together they set the parent of one section, and change the children of two:
the new parent gains the section at the end, unless it has it, and the old one loses it.

Tables are built by making new sections and adding sections to others, in any order. Whatever is
added to what, the two kinds of links keep telling the same, and then no call of `addChild` fails.

## Main definitions

* `SectionTable.enlist t p c`: `t` with `c` in the list of children of `p`
* `SectionTable.adding t p c x`: the section at `x` once `c` is a child of `p`
* `SectionTable.WellLinked t`: parents and lists of children tell the same
* `Move`: one step of building a table; `SectionTable.make`, `SectionTable.makeAll`: its effect, and
  that of several
* `SectionTable.EachMeets P t ms`: each of the moves is one that `P` allows when it is made

## Main results

* `SectionTable.addChild_cases`: what a call of `addChild` does
* `SectionTable.get_addChild`: every section of the table after a call of `addChild`
* `SectionTable.WellLinked.exists_make`: a move on a well linked table gives one
* `SectionTable.exists_makeAll`: what each allowed move preserves, a run of them preserves
-/

namespace PagePartials

namespace SectionTable

variable {t t' : SectionTable} {p c x : Ref}

/-! ## What a call changes -/

/-- The section at `x` once `c` has become a child of `p`. -/
def adding (t : SectionTable) (p c x : Ref) : LinkedSection where
  toSection := (t.get x).toSection
  parent := if x = c then some p else (t.get x).parent
  children :=
    if x = p then
      if c ∈ (t.get p).children then (t.get p).children else (t.get p).children ++ [c]
    else if (t.get c).parent = some x then (t.get x).children.erase c
    else (t.get x).children

/-- The table with `c` in the list of children of `p`. -/
def enlist (t : SectionTable) (p c : Ref) : SectionTable :=
  if c ∈ (t.get p).children then t
  else t.update p fun s => { s with children := s.children ++ [c] }

theorem size_enlist (t : SectionTable) (p c : Ref) : (t.enlist p c).size = t.size := by
  unfold enlist
  split
  · rfl
  · exact size_update

theorem get_enlist (hp : p < t.size) (c x : Ref) : (t.enlist p c).get x =
    { t.get x with
      children := if x = p ∧ c ∉ (t.get p).children then (t.get p).children ++ [c]
        else (t.get x).children } := by
  by_cases hmem : c ∈ (t.get p).children
  · simp [enlist, hmem]
  · by_cases hx : x = p
    · subst hx
      simp [enlist, hmem, get_update_self hp]
    · simp [enlist, hmem, get_update_of_ne hx, hx]

theorem adopt_eq (t : SectionTable) (p c : Ref) :
    t.adopt p c = (t.enlist p c).update c fun s => { s with parent := some p } :=
  rfl

theorem size_adopt (t : SectionTable) (p c : Ref) : (t.adopt p c).size = t.size := by
  rw [adopt_eq, size_update, size_enlist]

theorem get_adopt (hp : p < t.size) (hc : c < t.size) (x : Ref) :
    (t.adopt p c).get x =
      { t.get x with
        parent := if x = c then some p else (t.get x).parent
        children := if x = p ∧ c ∉ (t.get p).children then (t.get p).children ++ [c]
          else (t.get x).children } := by
  rw [adopt_eq]
  by_cases hx : x = c
  · subst hx
    rw [get_update_self (by rwa [size_enlist]), get_enlist hp]
    simp
  · rw [get_update_of_ne hx, get_enlist hp]
    simp [hx]

/-- A call that succeeds finds the section without a parent, or at `p` already, or takes it from the
list of its parent first. -/
theorem addChild_cases (h : t.addChild p c = .ok t') :
    (∀ old, (t.get c).parent = some old → old = p) ∧ t' = t.adopt p c ∨
      ∃ old, (t.get c).parent = some old ∧ old ≠ p ∧ c ∈ (t.get old).children ∧
        t' = (t.update old fun s => { s with children := s.children.erase c }).adopt p c := by
  unfold addChild at h
  split at h
  next hparent => exact .inl ⟨by simp [hparent], (Except.ok.inj h).symm⟩
  next old hparent =>
    split at h
    next hold => exact .inl ⟨by simp [hparent, hold], (Except.ok.inj h).symm⟩
    next hold =>
      split at h
      next hmem => exact .inr ⟨old, hparent, hold, hmem, (Except.ok.inj h).symm⟩
      next => exact nomatch h

theorem lt_of_mem_children (hx : x ∈ (t.get p).children) : p < t.size := by
  by_contra hlt
  rw [get_of_size_le (Nat.le_of_not_lt hlt)] at hx
  exact absurd hx List.not_mem_nil

theorem get_adopt_of_parent (hp : p < t.size) (hc : c < t.size)
    (hold : ∀ old, (t.get c).parent = some old → old = p) (x : Ref) :
    (t.adopt p c).get x = t.adding p c x := by
  rw [get_adopt hp hc]
  by_cases hx : x = p
  · subst hx
    by_cases hmem : c ∈ (t.get x).children <;> simp [adding, hmem]
  · have hne : (t.get c).parent ≠ some x := fun he => hx (hold x he)
    simp [adding, hx, hne]

theorem get_adopt_of_mem {old : Ref} (hp : p < t.size) (hc : c < t.size)
    (hparent : (t.get c).parent = some old) (hold : old ≠ p) (hmem : c ∈ (t.get old).children)
    (x : Ref) :
    ((t.update old fun s => { s with children := s.children.erase c }).adopt p c).get x =
      t.adding p c x := by
  have hkept : (t.update old fun s => { s with children := s.children.erase c }).get p = t.get p :=
    get_update_of_ne (Ne.symm hold)
  rw [get_adopt (by rwa [size_update]) (by rwa [size_update]), hkept]
  by_cases hx : x = old
  · subst hx
    simp [adding, get_update_self (lt_of_mem_children hmem), hold, hparent]
  · rw [get_update_of_ne hx]
    by_cases hxp : x = p
    · subst hxp
      by_cases hlisted : c ∈ (t.get x).children <;> simp [adding, hlisted]
    · have hne : (t.get c).parent ≠ some x := by simp [hparent, Ne.symm hx]
      simp [adding, hxp, hne]

/-- **What a call changes**: every section of the table after a section has been added to another
one. -/
theorem get_addChild (hp : p < t.size) (hc : c < t.size) (h : t.addChild p c = .ok t') (x : Ref) :
    t'.get x = t.adding p c x := by
  rcases addChild_cases h with ⟨hold, rfl⟩ | ⟨old, hparent, hold, hmem, rfl⟩
  · exact get_adopt_of_parent hp hc hold x
  · exact get_adopt_of_mem hp hc hparent hold hmem x

theorem size_addChild (h : t.addChild p c = .ok t') : t'.size = t.size := by
  rcases addChild_cases h with ⟨-, rfl⟩ | ⟨old, -, -, -, rfl⟩
  · exact size_adopt t p c
  · rw [size_adopt, size_update]

/-- A call changes the links of sections only. -/
theorem toSection_addChild (hp : p < t.size) (hc : c < t.size) (h : t.addChild p c = .ok t')
    (x : Ref) : (t'.get x).toSection = (t.get x).toSection := by
  rw [get_addChild hp hc h]
  rfl

theorem parent_addChild_self (hp : p < t.size) (hc : c < t.size) (h : t.addChild p c = .ok t') :
    (t'.get c).parent = some p := by
  rw [get_addChild hp hc h]
  exact if_pos rfl

theorem parent_addChild_of_ne (hp : p < t.size) (hc : c < t.size) (h : t.addChild p c = .ok t')
    (hx : x ≠ c) : (t'.get x).parent = (t.get x).parent := by
  rw [get_addChild hp hc h]
  exact if_neg hx

/-- A call only fails where the parent of the section does not list it. -/
theorem exists_addChild (h : ∀ old, (t.get c).parent = some old → c ∈ (t.get old).children) :
    ∃ t', t.addChild p c = .ok t' := by
  unfold addChild
  cases hparent : (t.get c).parent with
  | none => exact ⟨_, rfl⟩
  | some old =>
    by_cases hold : old = p
    · exact ⟨_, if_pos hold⟩
    · exact ⟨_, (if_neg hold).trans (if_pos (h old hparent))⟩

/-! ## Links that agree -/

/-- The two kinds of links tell the same: a section lists as its children just those that point to
it, each of them once. -/
structure WellLinked (t : SectionTable) : Prop where
  mem_children_iff : ∀ x p, x ∈ (t.get p).children ↔ (t.get x).parent = some p
  nodup_children : ∀ p, (t.get p).children.Nodup

theorem lt_of_parent (hx : (t.get x).parent = some p) : x < t.size := by
  by_contra hlt
  rw [get_of_size_le (Nat.le_of_not_lt hlt)] at hx
  exact nomatch hx

namespace WellLinked

theorem empty : SectionTable.empty.WellLinked where
  mem_children_iff x p := by simp [SectionTable.empty, get, LinkedSection.bare]
  nodup_children p := by simp [SectionTable.empty, get, LinkedSection.bare]

theorem exists_addChild (h : t.WellLinked) (p c : Ref) : ∃ t', t.addChild p c = .ok t' :=
  SectionTable.exists_addChild fun old hold => (h.mem_children_iff c old).mpr hold

theorem addChild (h : t.WellLinked) (hp : p < t.size) (hc : c < t.size)
    (ht : t.addChild p c = .ok t') : t'.WellLinked where
  mem_children_iff x q := by
    have hold := h.mem_children_iff
    rw [get_addChild hp hc ht, get_addChild hp hc ht]
    by_cases hx : x = c
    -- The section that moves: it is listed by `p`, and no longer by its old parent.
    · subst hx
      by_cases hq : q = p
      · subst hq
        by_cases hmem : x ∈ (t.get q).children <;> simp [adding, hmem]
      · by_cases hpar : (t.get x).parent = some q
        · have hgone := (h.nodup_children q).not_mem_erase (a := x)
          simp [adding, hq, hpar, hgone, Ne.symm hq]
        · simp [adding, hq, hpar, hold, Ne.symm hq]
    -- Any other section stays where it was.
    · by_cases hq : q = p
      · subst hq
        by_cases hmem : c ∈ (t.get q).children <;> simp [adding, hmem, hold, hx]
      · by_cases hpar : (t.get c).parent = some q
        · simp [adding, hq, hpar, hx, List.mem_erase_of_ne hx, hold]
        · simp [adding, hq, hpar, hold, hx]
  nodup_children q := by
    rw [get_addChild hp hc ht]
    by_cases hq : q = p
    · subst hq
      by_cases hmem : c ∈ (t.get q).children
      · simpa [adding, hmem] using h.nodup_children q
      · simpa [adding, hmem, List.nodup_append] using
          ⟨h.nodup_children q, fun a ha he => hmem (he ▸ ha)⟩
    · by_cases hpar : (t.get c).parent = some q
      · simpa [adding, hq, hpar] using (h.nodup_children q).erase c
      · simpa [adding, hq, hpar] using h.nodup_children q

end WellLinked

end SectionTable

/-! ## Building a table -/

/-- A section of the given name, with nothing in it yet. -/
def Section.named (name : Text) : Section where
  name := name
  content := []
  startComment := none
  endComment := none

/-- A new section, not linked to any other. -/
def LinkedSection.single (s : Section) : LinkedSection where
  toSection := s
  parent := none
  children := []

/-- One step of building a table: a new section, or one section made a child of another. -/
inductive Move where
  | create (s : Section)
  | add (parent child : Ref)
  deriving DecidableEq, Repr

namespace SectionTable

variable {t t' : SectionTable} {p c : Ref} {m : Move} {ms : List Move}

/-- The table after a move. -/
def make (t : SectionTable) : Move → Except LinkError SectionTable
  | .create s => .ok (t.push (.single s))
  | .add parent child => t.addChild parent child

/-- The table after several moves, one after the other. -/
def makeAll (t : SectionTable) (ms : List Move) : Except LinkError SectionTable := ms.foldlM make t

/-- Each of the moves is allowed in the table in which it is made. -/
def EachMeets (P : SectionTable → Move → Prop) (t : SectionTable) : List Move → Prop
  | [] => True
  | m :: ms => P t m ∧ ∀ t', t.make m = .ok t' → t'.EachMeets P ms

/-- The move is between sections of the table. -/
def Reaches (t : SectionTable) : Move → Prop
  | .create _ => True
  | .add parent child => parent < t.size ∧ child < t.size

instance decidableReaches (t : SectionTable) : ∀ m, Decidable (t.Reaches m)
  | .create _ => .isTrue trivial
  | .add parent child => inferInstanceAs (Decidable (parent < t.size ∧ child < t.size))

instance decidableEachMeets {P : SectionTable → Move → Prop} [∀ t m, Decidable (P t m)] :
    ∀ (t : SectionTable) (ms : List Move), Decidable (t.EachMeets P ms)
  | _, [] => .isTrue trivial
  | t, m :: ms =>
    match h : t.make m with
    | .error _ => decidable_of_iff (P t m)
        ⟨fun hm => ⟨hm, fun _ ht' => nomatch h.symm.trans ht'⟩, And.left⟩
    | .ok u =>
      have := decidableEachMeets (P := P) u ms
      decidable_of_iff (P t m ∧ u.EachMeets P ms)
        ⟨fun hms => ⟨hms.1, fun _ ht' => Except.ok.inj (h.symm.trans ht') ▸ hms.2⟩,
          fun hms => ⟨hms.1, hms.2 u h⟩⟩

/-- **What each allowed move preserves, a run of them preserves**, and the run comes to its end. -/
theorem exists_makeAll {P : SectionTable → Move → Prop} {Inv : SectionTable → Prop}
    (hstep : ∀ t m, Inv t → P t m → ∃ t', t.make m = .ok t' ∧ Inv t') (ht : Inv t)
    (hms : t.EachMeets P ms) : ∃ t', t.makeAll ms = .ok t' ∧ Inv t' := by
  induction ms generalizing t with
  | nil => exact ⟨t, rfl, ht⟩
  | cons m ms ih =>
    obtain ⟨hm, hms⟩ := hms
    obtain ⟨u, hu, hinv⟩ := hstep t m ht hm
    obtain ⟨t', ht', hinv'⟩ := ih hinv (hms u hu)
    refine ⟨t', ?_, hinv'⟩
    rw [makeAll, List.foldlM_cons, hu]
    exact ht'

theorem EachMeets.of_forall {P : SectionTable → Move → Prop} (h : ∀ m ∈ ms, ∀ u, P u m)
    (t : SectionTable) : t.EachMeets P ms := by
  induction ms generalizing t with
  | nil => exact trivial
  | cons m ms ih =>
    obtain ⟨hm, hms⟩ := List.forall_mem_cons.mp h
    exact ⟨hm t, fun t' _ => ih hms t'⟩

theorem EachMeets.imp {P Q : SectionTable → Move → Prop} (h : ∀ u n, P u n → Q u n)
    (hP : t.EachMeets P ms) : t.EachMeets Q ms := by
  induction ms generalizing t with
  | nil => exact trivial
  | cons m ms ih => exact ⟨h t m hP.1, fun t' ht' => ih (hP.2 t' ht')⟩

theorem EachMeets.and {P Q : SectionTable → Move → Prop} (hP : t.EachMeets P ms)
    (hQ : t.EachMeets Q ms) : t.EachMeets (fun u m => P u m ∧ Q u m) ms := by
  induction ms generalizing t with
  | nil => exact trivial
  | cons m ms ih =>
    obtain ⟨hPm, hPms⟩ := hP
    obtain ⟨hQm, hQms⟩ := hQ
    exact ⟨⟨hPm, hQm⟩, fun t' ht' => ih (hPms t' ht') (hQms t' ht')⟩

/-! ### New sections -/

/-- A new section is linked to nothing, and so is what stands outside the table. -/
theorem links_push_single (t : SectionTable) (s : Section) (x : Ref) :
    ((t.push (.single s)).get x).parent = (t.get x).parent ∧
      ((t.push (.single s)).get x).children = (t.get x).children := by
  rcases Nat.lt_trichotomy x t.size with hlt | rfl | hgt
  · rw [get_push_of_lt hlt]
    exact ⟨rfl, rfl⟩
  · rw [get_push_self, get_of_size_le (Nat.le_refl _)]
    exact ⟨rfl, rfl⟩
  · rw [get_of_size_le (Nat.le_of_lt hgt), get_of_size_le (by rw [size_push]; exact hgt)]
    exact ⟨rfl, rfl⟩

theorem WellLinked.push (h : t.WellLinked) (s : Section) : (t.push (.single s)).WellLinked where
  mem_children_iff x p := by
    rw [(links_push_single t s x).1, (links_push_single t s p).2]
    exact h.mem_children_iff x p
  nodup_children p := by
    rw [(links_push_single t s p).2]
    exact h.nodup_children p

/-- **A move between sections of a well linked table is made, and gives a well linked table.** -/
theorem WellLinked.exists_make (h : t.WellLinked) (hm : t.Reaches m) :
    ∃ t', t.make m = .ok t' ∧ t'.WellLinked := by
  cases m with
  | create s => exact ⟨_, rfl, h.push s⟩
  | add p c =>
    obtain ⟨t', ht'⟩ := h.exists_addChild p c
    exact ⟨t', ht', h.addChild hm.1 hm.2 ht'⟩

end SectionTable

end PagePartials
