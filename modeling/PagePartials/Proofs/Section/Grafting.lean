import PagePartials.Proofs.Section.Walking

/-!
# Sections put into a section

A table grows at its end: a new section is the last one, and becomes the last child of the section
that it is added to. So the sections of a body can be put into a section of the table all at once,
behind what that section holds, and the rest of the table stays as it is. Putting them there one
after the other comes to the same.

## Main definitions

* `LinkedSection.grow s b next`: `s` with what stands right in `b`
* `SectionTable.graft t p b`: the sections of `b` put into the section at `p`
* `SectionTable.attach t p s`, `SectionTable.nest t p name start inner stop`: a new section put
  there, without and with sections inside it
* `SectionTable.Within t p`: the section at `p` and its children are sections of the table

## Main results

* `SectionTable.addChild_push`: a new section becomes the last child of the one it is added to
* `SectionTable.graft_line`, `SectionTable.graft_nest`: a body put into a section item by item
* `SectionTable.graft_attach`: what is put into a new section stands inside it
-/

namespace PagePartials

/-! ## Changing an entry of a list -/

section

variable {α : Type}

theorem modify_append_of_lt {l : List α} {i : Nat} (h : i < l.length) (m : List α)
    (f : α → α) : (l ++ m).modify i f = l.modify i f ++ m := by
  induction l generalizing i with
  | nil => exact absurd h (Nat.not_lt_zero i)
  | cons x l ih =>
    cases i with
    | zero => rfl
    | succ i => simpa using ih (Nat.lt_of_succ_lt_succ h)

theorem modify_append_length (l m : List α) (x : α) (f : α → α) :
    (l ++ x :: m).modify l.length f = l ++ f x :: m := by
  induction l with
  | nil => rfl
  | cons y l ih => simpa using ih

end

/-! ## Changing a section -/

namespace LinkedSection

/-- A section of the given name that begins with the given line and holds nothing yet. -/
def begun (name start : Text) : LinkedSection := { bare name with startComment := some start }

/-- The section with one more own line. -/
def addLine (s : LinkedSection) (l : Text) : LinkedSection := { s with content := s.content ++ [l] }

/-- The section with one more child. -/
def addRef (s : LinkedSection) (c : Ref) : LinkedSection :=
  { s with children := s.children ++ [c] }

/-- The section with the line that ends it. -/
def endWith (s : LinkedSection) (l : Text) : LinkedSection := { s with endComment := some l }

/-- The section with the own lines of a body, and the sections right in it, put behind its own. -/
def grow (s : LinkedSection) (b : Body) (next : Nat) : LinkedSection :=
  { s with content := s.content ++ b.lines, children := s.children ++ b.childRefs next }

theorem grow_nil (s : LinkedSection) (next : Nat) : s.grow .nil next = s := by
  simp [grow, Body.lines, Body.childRefs]

theorem grow_addLine (s : LinkedSection) (l : Text) (rest : Body) (next : Nat) :
    (s.addLine l).grow rest next = s.grow (.line l rest) next := by
  simp [grow, addLine, Body.lines, Body.childRefs]

theorem grow_addRef (s : LinkedSection) (name start : Text) (inner : Body) (stop : Option Text)
    (rest : Body) (next : Nat) : (s.addRef next).grow rest (next + 1 + inner.count) =
      s.grow (.nested name start inner stop rest) next := by
  simp [grow, addRef, Body.lines, Body.childRefs]

end LinkedSection

/-! ## Changing a table -/

namespace SectionTable

variable {t : SectionTable} {p r : Nat} {s : LinkedSection}

/-- The table with more sections. -/
def extend (t : SectionTable) (ss : List LinkedSection) : SectionTable := ⟨t.nodes ++ ss⟩

theorem push_eq_extend (t : SectionTable) (s : LinkedSection) : t.push s = t.extend [s] := rfl

theorem extend_extend (t : SectionTable) (ss us : List LinkedSection) :
    (t.extend ss).extend us = t.extend (ss ++ us) := by
  simp [extend]

@[simp] theorem size_extend (t : SectionTable) (ss : List LinkedSection) :
    (t.extend ss).size = t.size + ss.length :=
  List.length_append

theorem get_extend_of_lt (h : r < t.size) (ss : List LinkedSection) :
    (t.extend ss).get r = t.get r := by
  simp [extend, get, List.getElem?_append_left (show r < t.nodes.length from h)]

theorem update_extend_of_lt (h : r < t.size) (ss : List LinkedSection)
    (f : LinkedSection → LinkedSection) : (t.extend ss).update r f = (t.update r f).extend ss :=
  congrArg mk (modify_append_of_lt h ss f)

theorem update_extend_self (h : t.size = r) (s : LinkedSection) (ss : List LinkedSection)
    (f : LinkedSection → LinkedSection) :
    (t.extend (s :: ss)).update r f = t.extend (f s :: ss) := by
  subst h
  exact congrArg mk (modify_append_length t.nodes ss s f)

theorem update_update (t : SectionTable) (r : Ref) (f g : LinkedSection → LinkedSection) :
    (t.update r f).update r g = t.update r fun s => g (f s) :=
  congrArg mk (List.modify_modify_eq f g r t.nodes)

/-! ### Putting sections into a section -/

/-- The table with the sections of a body put into the section at a place, behind what it holds. -/
def graft (t : SectionTable) (p : Ref) (b : Body) : SectionTable :=
  (t.update p (·.grow b t.size)).extend (b.linked p t.size)

/-- The table with a new section, the last child of the section at a place. -/
def attach (t : SectionTable) (p : Ref) (s : LinkedSection) : SectionTable :=
  (t.update p (·.addRef t.size)).extend [{ s with parent := some p }]

@[simp] theorem size_attach (t : SectionTable) (p : Ref) (s : LinkedSection) :
    (t.attach p s).size = t.size + 1 := by
  simp [attach]

/-- A new section becomes the last child of the section that it is added to. -/
theorem addChild_push (hp : p < t.size) (hnew : t.size ∉ (t.get p).children)
    (hs : s.parent = none) : (t.push s).addChild p t.size = .ok (t.attach p s) := by
  have hadopt : (t.push s).adopt p t.size = t.attach p s := by
    rw [adopt, get_push_of_lt hp, if_neg hnew, push_eq_extend, update_extend_of_lt hp]
    exact update_extend_self size_update s [] _
  rw [addChild, get_push_self, hs, hadopt]

theorem graft_nil (t : SectionTable) (p : Ref) : t.graft p .nil = t := by
  have hupdate : t.update p (fun s => s) = t := congrArg mk (List.modify_id p t.nodes)
  simp [graft, LinkedSection.grow_nil, hupdate, Body.linked, extend]

theorem graft_line (t : SectionTable) (p : Ref) (l : Text) (rest : Body) :
    (t.update p (·.addLine l)).graft p rest = t.graft p (.line l rest) := by
  rw [graft, size_update, update_update]
  simp only [LinkedSection.grow_addLine]
  rfl

/-- The table with a section, the last child of the section at a place, and with the sections of the
body inside it. -/
def nest (t : SectionTable) (p : Nat) (name start : Text) (inner : Body) (stop : Option Text) :
    SectionTable :=
  (t.update p (·.addRef t.size)).extend
    (Body.linkOne p (t.size + 1) name start inner stop :: inner.linked t.size (t.size + 1))

@[simp] theorem size_nest (t : SectionTable) (p : Nat) (name start : Text) (inner : Body)
    (stop : Option Text) : (t.nest p name start inner stop).size = t.size + 1 + inner.count := by
  simp only [nest, size_extend, size_update, List.length_cons, Body.length_linked]
  omega

/-- What is put into a new section stands inside it. -/
theorem graft_attach (t : SectionTable) (p : Ref) (name start : Text) (inner : Body) :
    (t.attach p (.begun name start)).graft t.size inner = t.nest p name start inner none := by
  rw [graft, attach, update_extend_self size_update, extend_extend, size_extend, size_update]
  rfl

theorem update_nest (t : SectionTable) (p : Ref) (name start stop : Text) (inner : Body) :
    (t.nest p name start inner none).update t.size (·.endWith stop) =
      t.nest p name start inner (some stop) :=
  update_extend_self size_update _ _ _

/-- Behind a section the rest of the body is put where the section was. -/
theorem graft_nest (hp : p < t.size) (name start : Text) (inner : Body) (stop : Option Text)
    (rest : Body) : (t.nest p name start inner stop).graft p rest =
      t.graft p (.nested name start inner stop rest) := by
  rw [graft, size_nest, nest, update_extend_of_lt (by simpa using hp), update_update, extend_extend]
  simp only [LinkedSection.grow_addRef _ name start inner stop rest]
  rfl

/-- The section at the place is one of the table, and so are its children. -/
structure Within (t : SectionTable) (p : Nat) : Prop where
  lt_size : p < t.size
  children_lt : ∀ c : Nat, c ∈ (t.get p).children → c < t.size

namespace Within

theorem addLine (h : t.Within p) (l : Text) : (t.update p (·.addLine l)).Within p where
  lt_size := by simpa using h.lt_size
  children_lt := by
    rw [get_update_self h.lt_size, size_update]
    exact h.children_lt

theorem attach (t : SectionTable) (p : Ref) (name start : Text) :
    (t.attach p (.begun name start)).Within t.size where
  lt_size := by simp
  children_lt := by
    have hget := get_push_self (t := t.update p (·.addRef t.size))
      (s := { LinkedSection.begun name start with parent := some p })
    rw [size_update] at hget
    rw [SectionTable.attach, ← push_eq_extend, hget]
    exact fun c hc => absurd hc List.not_mem_nil

theorem nest (h : t.Within p) (name start : Text) (inner : Body) (stop : Option Text) :
    (t.nest p name start inner stop).Within p where
  lt_size := by
    have := h.lt_size
    rw [size_nest]
    omega
  children_lt := by
    rw [SectionTable.nest, get_extend_of_lt (by simpa using h.lt_size), get_update_self h.lt_size,
      ← SectionTable.nest, size_nest]
    intro c hc
    rcases List.mem_append.mp hc with hc | hc
    · have := h.children_lt c hc
      omega
    · rw [List.mem_singleton.mp hc]
      omega

end Within

end SectionTable

end PagePartials
