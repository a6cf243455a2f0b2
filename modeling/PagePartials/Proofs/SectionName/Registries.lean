import PagePartials.Proofs.SectionName.Collision
import Mathlib.Data.List.DropRight

/-!
# Registries side by side

Several registries are in use at once, and the calls to them come in any order: each call asks one
of them for a name, or makes it forget its requests. What a call is answered depends on nothing but
the earlier requests to the same registry since it was last reset, and of these only on how many
there were for the same base. So two requests between which their registry is not reset are given
one name just where the one gets a number and the other is the first to ask for the numbered name as
a base of its own.

## Main definitions

* `SectionName.Call`: a call to one of several registries
* `SectionName.Registries.answers rs cs`: what the calls `cs` are answered, one after the other
* `SectionName.asked key cs`: the bases that a registry was asked for since its last reset
* `SectionName.IsRequest cs i key b k`: call `i` is the `k`-th request for the base `b`
* `SectionName.IsUnreset cs key i j`: the registry is not reset between the calls `i` and `j`

## Main results

* `SectionName.Registries.requests_after`: what a registry remembers are the requests since its
  last reset
* `SectionName.Registries.getElem?_answers`: the answer to the `k`-th request for a base
* `SectionName.IsRequest.lt_of_lt`: a later request for one base has a greater number
* `SectionName.Registries.answers_of_requests`: every answer, and which answers are the same
-/

namespace PagePartials

namespace SectionName

/-- A call to one of several registries, which is known by a key. -/
inductive Call (κ : Type) where
  /-- A name is asked for, for a marker that carries the text. -/
  | assign (key : κ) (t : Text)
  /-- The requests are to be forgotten. -/
  | reset (key : κ)
  deriving DecidableEq, Repr

/-- Several registries, each under its key. -/
def Registries (κ : Type) : Type := κ → Registry

variable {κ : Type}

/-- The registry is not reset between the two calls. -/
def IsUnreset (cs : List (Call κ)) (key : κ) (i j : Nat) : Prop :=
  ∀ l, i < l ∧ l < j ∨ j < l ∧ l < i → cs[l]? ≠ some (.reset key)

theorem IsUnreset.symm {cs : List (Call κ)} {key : κ} {i j : Nat} (h : IsUnreset cs key i j) :
    IsUnreset cs key j i :=
  fun l hl => h l hl.symm

variable [DecidableEq κ]

/-! ## Calls one after the other -/

namespace Registries

/-- Registries that have given no name. -/
def fresh : Registries κ := fun _ => .empty

/-- The registries with another one under the key. -/
def put (rs : Registries κ) (key : κ) (r : Registry) : Registries κ :=
  fun k => if k = key then r else rs k

@[simp] theorem put_self (rs : Registries κ) (key : κ) (r : Registry) : rs.put key r key = r :=
  if_pos rfl

theorem put_of_ne {key key' : κ} (h : key ≠ key') (rs : Registries κ) (r : Registry) :
    rs.put key' r key = rs key :=
  if_neg h

/-- What a call is answered, and the registries after it. A reset is answered by no name. -/
def step (rs : Registries κ) : Call κ → Option Text × Registries κ
  | .assign key t =>
    let (name, registry) := (rs key).assign t
    (some name, rs.put key registry)
  | .reset key => (none, rs.put key (rs key).reset)

/-- What the calls are answered, one after the other. -/
def answers (rs : Registries κ) : List (Call κ) → List (Option Text)
  | [] => []
  | c :: cs => (rs.step c).1 :: answers (rs.step c).2 cs

/-- The registries after the calls. -/
def after (rs : Registries κ) (cs : List (Call κ)) : Registries κ :=
  cs.foldl (fun rs c => (rs.step c).2) rs

theorem getElem?_answers_eq_step (rs : Registries κ) (cs : List (Call κ)) (i : Nat) :
    (rs.answers cs)[i]? = cs[i]?.map fun c => ((rs.after (cs.take i)).step c).1 := by
  induction cs generalizing rs i with
  | nil => rfl
  | cons c cs ih =>
    cases i with
    | zero => rfl
    | succ i => exact ih (rs.step c).2 i

theorem after_concat (rs : Registries κ) (cs : List (Call κ)) (c : Call κ) :
    rs.after (cs ++ [c]) = ((rs.after cs).step c).2 :=
  List.foldl_append

end Registries

/-! ## Requests since the last reset -/

/-- The base that a call asks a registry for, if it does. -/
def Call.base? (key : κ) : Call κ → Option Text
  | assign key' t => if key' = key then some (normalize t) else none
  | reset _ => none

/-- The bases that the calls ask a registry for since they last reset it, in their order. -/
def asked (key : κ) (cs : List (Call κ)) : List Text :=
  (cs.rtakeWhile (· ≠ .reset key)).filterMap (Call.base? key)

/-- Calls that do not reset a registry add what they ask it for. -/
theorem asked_append {key : κ} {ds : List (Call κ)} (h : Call.reset key ∉ ds) (cs : List (Call κ)) :
    asked key (cs ++ ds) = asked key cs ++ ds.filterMap (Call.base? key) := by
  have hall : ∀ c ∈ ds.reverse, decide (c ≠ Call.reset key) = true := by
    intro c hc
    refine decide_eq_true ?_
    rintro rfl
    exact h (List.mem_reverse.mp hc)
  rw [asked, List.rtakeWhile, List.reverse_append, List.takeWhile_append_of_pos hall,
    List.reverse_append, List.reverse_reverse, List.filterMap_append]
  rfl

theorem asked_concat_reset (key : κ) (cs : List (Call κ)) : asked key (cs ++ [.reset key]) = [] := by
  rw [asked, List.rtakeWhile_concat_neg _ _ _ (by simp)]
  rfl

namespace Registries

/-- **What a registry remembers** are the requests made of it since its last reset. -/
theorem requests_after (cs : List (Call κ)) (key : κ) :
    ((fresh : Registries κ).after cs key).requests = (asked key cs).reverse := by
  induction cs using List.reverseRecOn with
  | nil => rfl
  | append_singleton cs c ih =>
    rw [after_concat]
    cases c with
    | assign key' t =>
      rw [asked_append (by simp)]
      by_cases hk : key = key'
      · subst hk
        simp [step, Registry.assign, Call.base?, ih]
      · simp [step, Call.base?, put_of_ne hk, Ne.symm hk, ih]
    | reset key' =>
      by_cases hk : key = key'
      · subst hk
        rw [asked_concat_reset]
        simp [step, Registry.reset, Registry.empty]
      · rw [asked_append (by simpa using hk)]
        simp [step, Call.base?, put_of_ne hk, ih]

end Registries

/-- The call asks a registry for the base, and is the `k`-th to do so since the registry was last
reset. -/
def IsRequest (cs : List (Call κ)) (i : Nat) (key : κ) (b : Text) (k : Nat) : Prop :=
  ∃ t, cs[i]? = some (.assign key t) ∧ normalize t = b ∧
    (asked key (cs.take (i + 1))).count b = k

variable {cs : List (Call κ)} {key : κ} {i j : Nat} {t a b : Text} {k m : Nat}

theorem asked_take_succ (h : cs[i]? = some (.assign key t)) :
    asked key (cs.take (i + 1)) = asked key (cs.take i) ++ [normalize t] := by
  rw [List.take_add_one, h, Option.toList_some, asked_append (by simp)]
  simp [Call.base?]

/-- What a registry was asked for up to a call is still remembered at a later one, if it is not reset
in between. -/
theorem asked_take_prefix (hij : i < j) (h : IsUnreset cs key i j) :
    asked key (cs.take (i + 1)) <+: asked key (cs.take j) := by
  -- The calls before `j` are those up to `i` and some more, with no reset among these.
  obtain ⟨d, rfl⟩ := Nat.exists_eq_add_of_lt hij
  have hmem : Call.reset key ∉ (cs.drop (i + 1)).take d := by
    intro hr
    obtain ⟨l, hl⟩ := List.mem_iff_getElem?.mp hr
    rw [List.getElem?_take] at hl
    split at hl
    next hld =>
      rw [List.getElem?_drop] at hl
      exact h (i + 1 + l) (.inl ⟨by omega, by omega⟩) hl
    next => exact nomatch hl
  rw [Nat.add_right_comm, List.take_add (i := i + 1), asked_append hmem]
  exact List.prefix_append _ _

/-- Every call that asks for a name is some request for its base. -/
theorem exists_isRequest (h : cs[i]? = some (.assign key t)) :
    ∃ k, 1 ≤ k ∧ IsRequest cs i key (normalize t) k := by
  refine ⟨_, ?_, t, h, rfl, rfl⟩
  rw [asked_take_succ h, List.count_append, List.count_singleton_self]
  omega

namespace IsRequest

theorem pos (h : IsRequest cs i key b k) : 1 ≤ k := by
  obtain ⟨t, ht, rfl, rfl⟩ := h
  rw [asked_take_succ ht, List.count_append, List.count_singleton_self]
  omega

theorem head?_ne (h : IsRequest cs i key b k) : b.head? ≠ some separator := by
  obtain ⟨t, -, rfl, -⟩ := h
  exact head?_normalize_ne t

/-- A later request for one base has a greater number, unless the registry is reset in between. -/
theorem lt_of_lt (hi : IsRequest cs i key b k) (hj : IsRequest cs j key b m) (hij : i < j)
    (h : IsUnreset cs key i j) : k < m := by
  obtain ⟨_, -, -, rfl⟩ := hi
  obtain ⟨u, hu, rfl, rfl⟩ := hj
  obtain ⟨later, hlater⟩ := asked_take_prefix hij h
  rw [asked_take_succ hu, ← hlater, List.count_append, List.count_append,
    List.count_singleton_self]
  omega

end IsRequest

/-! ## Answers -/

/-- A base with a number, written out. -/
theorem numbered_eq_ite (hk : 1 ≤ k) (b : Text) :
    numbered b k = if k = 1 then b else b ++ separator :: Nat.toDigits 10 k := by
  split
  next h => rw [h, numbered_of_le (Nat.le_refl 1)]
  next h => exact numbered_of_lt (by omega) b

namespace Registries

/-- The `k`-th request for a base is answered by the base with that number. -/
theorem getElem?_answers (h : IsRequest cs i key b k) :
    ((fresh : Registries κ).answers cs)[i]? = some (some (numbered b k)) := by
  obtain ⟨t, ht, rfl, rfl⟩ := h
  have hcount : ((fresh : Registries κ).after (cs.take i) key).count (normalize t) =
      (asked key (cs.take i)).count (normalize t) := by
    rw [Registry.count, requests_after, List.count_reverse]
  rw [getElem?_answers_eq_step, ht, asked_take_succ ht, List.count_append,
    List.count_singleton_self, ← hcount]
  rfl

/-- Two requests that one registry gets without a reset between them have different bases or
different numbers. -/
theorem ne_of_isRequest (hij : i ≠ j) (hi : IsRequest cs i key a k) (hj : IsRequest cs j key b m)
    (h : IsUnreset cs key i j) : ¬ (a = b ∧ k = m) := by
  rintro ⟨rfl, rfl⟩
  rcases Nat.lt_or_gt_of_ne hij with hlt | hlt
  · exact Nat.lt_irrefl k (hi.lt_of_lt hj hlt h)
  · exact Nat.lt_irrefl k (hj.lt_of_lt hi hlt h.symm)

/-- Two requests to one registry, with no reset between them, are given one name just if one of them
gets a number and the other is the first request for the base that this makes. -/
theorem getElem?_answers_eq_iff (hij : i ≠ j) (hi : IsRequest cs i key a k)
    (hj : IsRequest cs j key b m) (h : IsUnreset cs key i j) :
    ((fresh : Registries κ).answers cs)[i]? = ((fresh : Registries κ).answers cs)[j]? ↔
      (2 ≤ k ∧ m = 1 ∧ b = numbered a k) ∨ (2 ≤ m ∧ k = 1 ∧ a = numbered b m) := by
  rw [getElem?_answers hi, getElem?_answers hj, Option.some_inj, Option.some_inj,
    numbered_eq_iff hi.pos hj.pos]
  exact or_iff_right (ne_of_isRequest hij hi hj h)

/-- The names made from the empty base are given to no other request. -/
theorem getElem?_answers_ne_of_nil (hij : i ≠ j) (hi : IsRequest cs i key [] k)
    (hj : IsRequest cs j key b m) (h : IsUnreset cs key i j) :
    ((fresh : Registries κ).answers cs)[i]? ≠ ((fresh : Registries κ).answers cs)[j]? := by
  intro he
  rcases (getElem?_answers_eq_iff hij hi hj h).mp he with ⟨hk, -, hb⟩ | ⟨hm, -, hb⟩
  -- No base starts with an underscore, and no name with a number is empty.
  · exact hj.head?_ne (by rw [hb, numbered_of_lt hk]; rfl)
  · rw [numbered_of_lt hm] at hb
    exact List.append_ne_nil_of_right_ne_nil b (List.cons_ne_nil _ _) hb.symm

/-- **What registries answer, and when they answer alike.** However calls to several registries are
mixed, the `k`-th request for a base that a registry gets since its last reset is answered by the
base alone if it is the first one, and else by the base with the number `k` behind an underscore.
Two requests that one registry gets with no reset between them are given one name just where one of
them is a later request for some base and the other is the first one for the name which that is
given. The names made from the empty base are never given twice. -/
theorem answers_of_requests (cs : List (Call κ)) :
    (∀ i key t, cs[i]? = some (.assign key t) →
      ∃ k, 1 ≤ k ∧ IsRequest cs i key (normalize t) k) ∧
    (∀ i key b k, IsRequest cs i key b k →
      ((fresh : Registries κ).answers cs)[i]? =
        some (some (if k = 1 then b else b ++ separator :: Nat.toDigits 10 k))) ∧
    (∀ i j key a b k m, i ≠ j → IsRequest cs i key a k → IsRequest cs j key b m →
      IsUnreset cs key i j →
        (((fresh : Registries κ).answers cs)[i]? = ((fresh : Registries κ).answers cs)[j]? ↔
          (2 ≤ k ∧ m = 1 ∧ b = a ++ separator :: Nat.toDigits 10 k) ∨
            (2 ≤ m ∧ k = 1 ∧ a = b ++ separator :: Nat.toDigits 10 m))) ∧
    (∀ i j key b k m, i ≠ j → IsRequest cs i key [] k → IsRequest cs j key b m →
      IsUnreset cs key i j →
        ((fresh : Registries κ).answers cs)[i]? ≠ ((fresh : Registries κ).answers cs)[j]?) := by
  refine ⟨fun i key t => exists_isRequest, ?answer, ?alike,
    fun i j key b k m => getElem?_answers_ne_of_nil⟩
  case answer =>
    intro i key b k h
    rw [getElem?_answers h, numbered_eq_ite h.pos]
  case alike =>
    intro i j key a b k m hij hi hj h
    rw [getElem?_answers_eq_iff hij hi hj h]
    refine or_congr (and_congr_right fun hk => ?_) (and_congr_right fun hm => ?_)
    · rw [numbered_of_lt hk]
    · rw [numbered_of_lt hm]

/-- Calls to two registries. The first one is asked for `x` twice and then for `x 2`, and once more
after a reset. -/
def mixedCalls : List (Call Bool) :=
  [.assign true "x".toList, .assign false "x".toList, .assign true "X!".toList,
    .assign true "x 2".toList, .reset true, .assign true "x".toList]

/-- The second `x` and the `x 2` are given one name; behind the reset there is a first `x` again. -/
theorem answers_mixedCalls :
    ((fresh : Registries Bool).answers mixedCalls)[2]? =
        ((fresh : Registries Bool).answers mixedCalls)[3]? ∧
      ((fresh : Registries Bool).answers mixedCalls)[5]? = some (some "x".toList) := by
  have hsecond : IsRequest mixedCalls 2 true "x".toList 2 :=
    ⟨"X!".toList, rfl, by decide, by decide⟩
  have hbase : IsRequest mixedCalls 3 true "x_2".toList 1 :=
    ⟨"x 2".toList, rfl, by decide, by decide⟩
  have hagain : IsRequest mixedCalls 5 true "x".toList 1 :=
    ⟨"x".toList, rfl, by decide, by decide⟩
  have hunreset : IsUnreset mixedCalls true 2 3 := by
    intro l hl
    omega
  obtain ⟨-, hanswer, halike, -⟩ := answers_of_requests mixedCalls
  refine ⟨?_, hanswer 5 true _ 1 hagain⟩
  rw [halike 2 3 true _ _ 2 1 (by decide) hsecond hbase hunreset]
  exact .inl ⟨Nat.le_refl 2, rfl, by decide⟩

end Registries

end SectionName

end PagePartials
