import PagePartials.Proofs.Document.Sections
import PagePartials.Proofs.Text.Pieces
import Mathlib.Data.List.Nodup

/-!
# Names that are given twice

A registry numbers the requests for each base by itself and does not look at the names it has given
for others. A base with a number from 2 on behind it can be asked for as a base of its own, and then
one name is given twice. There is no other way: the number in a name is what stands behind its last
underscore, so a name tells the base and the number it was made from, unless it was given as a base.

## Main definitions

* `SectionName.Registry.AvoidsNumbered ts`: no base asked for in `ts` is a name given with a number

## Main results

* `SectionName.numbered_eq_iff`: when two bases with numbers give the same name
* `SectionName.Registry.getElem?_assignAll_empty`: the name given to a request, from the bases alone
* `SectionName.Registry.nodup_assignAll_iff`: when all requests get different names
* `Document.nodup_names_iff`: the same for the sections of a page
-/

namespace PagePartials

namespace SectionName

variable {a b u v : Text} {k m : Nat}

/-! ## Bases with numbers -/

/-- What stands behind the last separator, and what stands before it, can be told from a text. -/
theorem append_separator_inj (hu : separator ∉ u) (hv : separator ∉ v)
    (h : a ++ separator :: u = b ++ separator :: v) : a = b ∧ u = v := by
  have hp := congrArg (Text.pieces separator) h
  rw [Text.pieces_append_cons, Text.pieces_append_cons, Text.pieces_of_notMem hu,
    Text.pieces_of_notMem hv] at hp
  obtain ⟨hab, huv⟩ := List.append_inj' hp rfl
  refine ⟨?_, by simpa using huv⟩
  rw [← Text.intercalate_pieces separator a, hab, Text.intercalate_pieces]

theorem separator_notMem_toDigits (k : Nat) : separator ∉ Nat.toDigits 10 k := fun h =>
  absurd (isKept_of_mem_toDigits h) (by decide)

/-- Two bases with numbers give one name if they are the same, or if one of them, without a number,
is the name that the other gives. -/
theorem numbered_eq_iff (hk : 1 ≤ k) (hm : 1 ≤ m) : numbered a k = numbered b m ↔
    (a = b ∧ k = m) ∨ (2 ≤ k ∧ m = 1 ∧ b = numbered a k) ∨
      (2 ≤ m ∧ k = 1 ∧ a = numbered b m) := by
  constructor
  · intro h
    rcases Nat.lt_or_ge 1 k with hk' | hk' <;> rcases Nat.lt_or_ge 1 m with hm' | hm'
    -- Both have a number, which is what stands behind the last underscore.
    · rw [numbered_of_lt hk', numbered_of_lt hm'] at h
      obtain ⟨hab, hkm⟩ := append_separator_inj (separator_notMem_toDigits k)
        (separator_notMem_toDigits m) h
      exact .inl ⟨hab, toDigits_injective hkm⟩
    · rw [numbered_of_le hm'] at h
      exact .inr (.inl ⟨hk', by omega, h.symm⟩)
    · rw [numbered_of_le hk'] at h
      exact .inr (.inr ⟨hm', by omega, h⟩)
    · rw [numbered_of_le hk', numbered_of_le hm'] at h
      exact .inl ⟨h, by omega⟩
  · rintro (⟨rfl, rfl⟩ | ⟨-, rfl, rfl⟩ | ⟨-, rfl, rfl⟩)
    · rfl
    · exact (numbered_of_le (Nat.le_refl 1) _).symm
    · exact numbered_of_le (Nat.le_refl 1) _

theorem numbered_ne_self (hk : 2 ≤ k) (b : Text) : numbered b k ≠ b := by
  rw [numbered_of_lt hk]
  simp

/-! ## Requests that get different names -/

namespace Registry

variable {ts : List Text} {i j : Nat} {n : Text}

theorem getElem?_assignAll_empty : (empty.assignAll ts)[i]? = some n ↔
    ∃ b, (ts.map normalize)[i]? = some b ∧
      n = numbered b (((ts.map normalize).take i).count b + 1) := by
  rw [getElem?_assignAll, List.getElem?_map, ← List.map_take]
  have hcount (b : Text) : empty.count b = 0 := List.count_nil
  simp only [hcount, Nat.zero_add]
  cases ts[i]? <;> simp [eq_comm]

/-- A text that occurs often enough in a list has an occurrence of each number. -/
theorem exists_getElem?_count_take {xs : List Text} (hk : 1 ≤ k) (h : k ≤ xs.count b) :
    ∃ i, xs[i]? = some b ∧ (xs.take i).count b + 1 = k := by
  induction xs generalizing k with
  | nil => simp at h; omega
  | cons x xs ih =>
    by_cases hx : x = b
    · subst hx
      rw [List.count_cons_self] at h
      rcases Nat.lt_or_ge 1 k with hk' | hk'
      · obtain ⟨i, hi, hc⟩ := ih (k := k - 1) (by omega) (by omega)
        exact ⟨i + 1, hi, by rw [List.take_succ_cons, List.count_cons_self]; omega⟩
      · exact ⟨0, rfl, by simp; omega⟩
    · rw [List.count_cons_of_ne hx] at h
      obtain ⟨i, hi, hc⟩ := ih hk h
      exact ⟨i + 1, hi, by rw [List.take_succ_cons, List.count_cons_of_ne hx, hc]⟩

/-- Whether none of the bases that the texts ask for is a name that one of them is given with a
number. -/
def AvoidsNumbered (ts : List Text) : Prop :=
  ∀ (b : Text) (k : Nat), 2 ≤ k → k ≤ (ts.map normalize).count b → numbered b k ∉ ts.map normalize

/-- **All requests get different names** just if none of them asks for a numbered name that another
one is given. -/
theorem nodup_assignAll_iff (ts : List Text) : (empty.assignAll ts).Nodup ↔ AvoidsNumbered ts := by
  rw [List.nodup_iff_getElem?_ne_getElem?]
  constructor
  · intro h b k hk hcount hmem
    -- The request for the base with that number, and the first one for the numbered name.
    obtain ⟨i, hi, hki⟩ := exists_getElem?_count_take (by omega) hcount
    obtain ⟨j, hj, hkj⟩ := exists_getElem?_count_take (Nat.le_refl 1)
      (List.count_pos_iff.mpr hmem)
    have hni : (empty.assignAll ts)[i]? = some (numbered b k) :=
      getElem?_assignAll_empty.mpr ⟨b, hi, by rw [hki]⟩
    have hnj : (empty.assignAll ts)[j]? = some (numbered b k) :=
      getElem?_assignAll_empty.mpr ⟨_, hj, by rw [hkj, numbered_of_le (Nat.le_refl 1)]⟩
    have hlt (l : Nat) (hl : (empty.assignAll ts)[l]? = some (numbered b k)) :
        l < (empty.assignAll ts).length := (List.getElem?_eq_some_iff.mp hl).1
    rcases Nat.lt_trichotomy i j with hij | rfl | hij
    · exact h i j hij (hlt j hnj) (hni.trans hnj.symm)
    · exact numbered_ne_self hk b (Option.some.inj (hj.symm.trans hi))
    · exact h j i hij (hlt i hni) (hnj.trans hni.symm)
  · intro h i j hij hj heq
    obtain ⟨n, hnj⟩ : ∃ n, (empty.assignAll ts)[j]? = some n :=
      ⟨_, List.getElem?_eq_getElem hj⟩
    obtain ⟨a, ha, hna⟩ := getElem?_assignAll_empty.mp (heq.trans hnj)
    obtain ⟨b, hb, hnb⟩ := getElem?_assignAll_empty.mp hnj
    have hle {l : Nat} {c : Text} (hc : (ts.map normalize)[l]? = some c) :
        ((ts.map normalize).take l).count c + 1 ≤ (ts.map normalize).count c := by
      have hl := count_take_lt (List.getElem?_eq_some_iff.mp hc).1 hc
      rwa [List.take_length] at hl
    rcases (numbered_eq_iff (by omega) (by omega)).mp (hna.symm.trans hnb) with
      ⟨rfl, hkm⟩ | ⟨hk, -, hab⟩ | ⟨hm, -, hab⟩
    -- For one base, the later request has a greater number.
    · have := count_take_lt hij ha
      omega
    · exact h a _ hk (hle ha) (hab ▸ List.mem_of_getElem? hb)
    · exact h b _ hm (hle hb) (hab ▸ List.mem_of_getElem? ha)

end Registry

end SectionName

namespace Document

open SectionName (Registry)

/-- **Names are given twice only where a numbered name is asked for.** The names for any requests in
turn are all different just if no base asked for is the name that another base is given with a
number from 2 on. So the sections of a page, at whatever depth, have different names just if no
begin marker asks for the numbered name of another section. -/
theorem nodup_names_iff (ts : List Text) (t : Text) :
    ((Registry.empty.assignAll ts).Nodup ↔ Registry.AvoidsNumbered ts) ∧
    (((ofText t).sections.map (·.name)).Nodup ↔
      Registry.AvoidsNumbered ((ofText t).sections.map (·.markerName))) := by
  refine ⟨Registry.nodup_assignAll_iff ts, ?_⟩
  rw [map_name_sections]
  exact Registry.nodup_assignAll_iff _

/-- A page with a section `x` in another one, and a section `x 2` in both. -/
def nestedTwice : Text := "<!-- x -->\n<!-- x -->\n<!-- x 2 -->\n".toList

theorem map_markerName_nestedTwice : (ofText nestedTwice).sections.map (·.markerName) =
    ["x".toList, "x".toList, "x 2".toList] := by
  decide +kernel

/-- The second `x` and the `x 2` get one name, in a registry and on a page. -/
theorem not_nodup_names_nestedTwice :
    ¬ (Registry.empty.assignAll ["x".toList, "x".toList, "x 2".toList]).Nodup ∧
      ¬ ((ofText nestedTwice).sections.map (·.name)).Nodup := by
  have hasks : ¬ Registry.AvoidsNumbered ["x".toList, "x".toList, "x 2".toList] := by
    intro h
    exact h "x".toList 2 (Nat.le_refl 2) (by decide) (by decide)
  obtain ⟨hgiven, hnames⟩ := nodup_names_iff ["x".toList, "x".toList, "x 2".toList] nestedTwice
  rw [hgiven, hnames, map_markerName_nestedTwice]
  exact ⟨hasks, hasks⟩

end Document

end PagePartials
