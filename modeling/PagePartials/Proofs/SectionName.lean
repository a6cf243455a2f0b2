import PagePartials.SectionName
import Mathlib.Data.List.Basic

/-!
# The names of sections

What the names that a registry gives are made of, and when two of them can be told apart. A name is
a base, or a base with a number from 2 on behind an underscore; a base has nothing but small
letters, digits and underscores in it and does not start with an underscore. Two requests for one
base never get the same name.

## Main definitions

* `SectionName.IsNameChar c`: whether `c` can stand in a name
* `SectionName.IsNumber t`: whether `t` is the decimal form of a number from 2 on
* `SectionName.IsName n`: whether a registry can give the name `n`
* `SectionName.Registry.assignedAfter r ts`: the registry after requests for the texts `ts`

## Main results

* `SectionName.isNameChar_of_mem_numbered`: the characters of a name
* `SectionName.IsName.isNumber`: a name that starts with an underscore is a number
  behind it
* `SectionName.Registry.getElem?_assignAll`: the name given to each of several requests
* `SectionName.Registry.getElem?_assignAll_ne`: requests for one base get different names
-/

namespace PagePartials

namespace SectionName

/-! ## Normalized names -/

/-- Whether the character can stand in a name: a small letter, a digit or an underscore. -/
def IsNameChar (c : Char) : Prop := isKept c = true ∨ c = separator

theorem IsNameChar.ne {c d : Char} (h : IsNameChar c) (hd : isKept d = false)
    (hs : d ≠ separator) : c ≠ d := by
  rintro rfl
  rcases h with hk | hk
  · exact absurd hk (by simp [hd])
  · exact hs hk

theorem isNameChar_of_mem_collapse {t : Text} {c : Char} (hc : c ∈ collapse t) : IsNameChar c := by
  induction t with
  | nil => simp [collapse] at hc
  | cons d t ih =>
    rw [collapse] at hc
    split at hc
    next hd =>
      rcases List.mem_cons.mp hc with rfl | hc
      · exact .inl hd
      · exact ih hc
    next =>
      split at hc
      next => exact .inr (List.mem_singleton.mp hc)
      next e u hu =>
        rw [hu] at ih
        split at hc
        next => exact ih hc
        next =>
          rcases List.mem_cons.mp hc with rfl | hc
          · exact .inr rfl
          · exact ih hc

theorem strip_isPrefix (t : Text) : strip t <+: t.dropWhile (· == separator) := by
  rw [← List.reverse_suffix]
  simpa [strip] using List.dropWhile_suffix _

theorem strip_sublist (t : Text) : (strip t).Sublist t :=
  (strip_isPrefix t).sublist.trans (List.dropWhile_sublist _)

theorem isNameChar_of_mem_normalize {t : Text} {c : Char} (hc : c ∈ normalize t) : IsNameChar c :=
  isNameChar_of_mem_collapse ((strip_sublist _).subset hc)

/-- A normalized name does not start with an underscore. -/
theorem head?_normalize_ne (t : Text) : (normalize t).head? ≠ some separator := by
  intro h
  obtain ⟨u, hu⟩ := List.head?_eq_some_iff.mp h
  -- What is left after stripping starts where the underscores in front end.
  have hp := strip_isPrefix (collapse t.lower)
  rw [show strip (collapse t.lower) = separator :: u from hu] at hp
  obtain ⟨v, hv⟩ := hp
  have hne := List.head?_dropWhile_not (· == separator) (collapse t.lower)
  rw [← hv] at hne
  simp at hne

/-! ## Numbered names -/

/-- Whether the text is the decimal form of a number from 2 on. -/
def IsNumber (t : Text) : Prop := ∃ k, 2 ≤ k ∧ t = Nat.toDigits 10 k

theorem toDigits_injective {k m : Nat} (h : Nat.toDigits 10 k = Nat.toDigits 10 m) : k = m := by
  rw [← Nat.ofDigitChars_ten_toDigits (n := k), h, Nat.ofDigitChars_ten_toDigits]

theorem isKept_of_isDigit {c : Char} (hc : c.isDigit = true) : isKept c = true := by
  simp only [Char.isDigit, Bool.and_eq_true, decide_eq_true_eq] at hc
  simp only [isKept, Bool.or_eq_true, Bool.and_eq_true, decide_eq_true_eq]
  exact .inr hc

theorem isKept_of_mem_toDigits {c : Char} {k : Nat} (hc : c ∈ Nat.toDigits 10 k) :
    isKept c = true :=
  isKept_of_isDigit (Nat.isDigit_of_mem_toDigits (by omega) (by omega) hc)

namespace IsNumber

variable {t : Text}

theorem ne_nil (h : IsNumber t) : t ≠ [] := by
  obtain ⟨k, -, rfl⟩ := h
  exact Nat.toDigits_ne_nil

theorem separator_notMem (h : IsNumber t) : separator ∉ t := by
  obtain ⟨k, -, rfl⟩ := h
  intro hs
  exact absurd (isKept_of_mem_toDigits hs) (by decide)

end IsNumber

theorem numbered_of_le {k : Nat} (hk : k ≤ 1) (base : Text) : numbered base k = base := by
  simp [numbered, hk]

theorem numbered_of_lt {k : Nat} (hk : 1 < k) (base : Text) :
    numbered base k = base ++ separator :: Nat.toDigits 10 k := by
  simp [numbered, Nat.not_le.mpr hk]

theorem prefix_numbered (base : Text) (k : Nat) : base <+: numbered base k := by
  unfold numbered
  split
  · exact List.prefix_rfl
  · exact List.prefix_append ..

theorem isNameChar_of_mem_numbered {t : Text} {k : Nat} {c : Char}
    (hc : c ∈ numbered (normalize t) k) : IsNameChar c := by
  unfold numbered at hc
  split at hc
  · exact isNameChar_of_mem_normalize hc
  · rcases List.mem_append.mp hc with hc | hc
    · exact isNameChar_of_mem_normalize hc
    · rcases List.mem_cons.mp hc with rfl | hc
      · exact .inr rfl
      · exact .inl (isKept_of_mem_toDigits hc)

/-- A base gets a different name for each number. -/
theorem numbered_injective {base : Text} {k m : Nat} (hk : 1 ≤ k) (hm : 1 ≤ m)
    (h : numbered base k = numbered base m) : k = m := by
  -- With two numbers the digits decide; a name with a number is longer than the base alone.
  rcases Nat.lt_or_ge 1 k with hk' | hk' <;> rcases Nat.lt_or_ge 1 m with hm' | hm'
  · rw [numbered_of_lt hk', numbered_of_lt hm'] at h
    exact toDigits_injective (List.cons.inj (List.append_cancel_left h)).2
  · rw [numbered_of_lt hk', numbered_of_le hm'] at h
    simp at h
  · rw [numbered_of_le hk', numbered_of_lt hm'] at h
    simp at h
  · omega

theorem numbered_eq_nil {t : Text} {k : Nat} (h : numbered (normalize t) k = []) :
    normalize t = [] := by
  have hp := prefix_numbered (normalize t) k
  rw [h] at hp
  exact List.prefix_nil.mp hp

theorem numbered_eq_cons_separator {t u : Text} {k : Nat}
    (h : numbered (normalize t) k = separator :: u) : normalize t = [] ∧ IsNumber u := by
  rcases hb : normalize t with _ | ⟨c, b⟩
  · rw [hb] at h
    rcases Nat.lt_or_ge 1 k with hk | hk
    · rw [numbered_of_lt hk] at h
      exact ⟨rfl, k, hk, (List.cons.inj h).2.symm⟩
    · rw [numbered_of_le hk] at h
      simp at h
  -- A base that is not empty would start with the underscore itself.
  · have hp := prefix_numbered (normalize t) k
    rw [h, hb, List.cons_prefix_cons] at hp
    exact absurd (by simp [hb, hp.1]) (head?_normalize_ne t)

/-- A number is not the name that the empty base is given. -/
theorem numbered_nil_ne_of_isNumber {u : Text} (hu : IsNumber u) (k : Nat) :
    numbered [] k ≠ u := by
  rintro rfl
  rcases Nat.lt_or_ge 1 k with hk | hk
  · rw [numbered_of_lt hk] at hu
    exact hu.separator_notMem (by simp)
  · rw [numbered_of_le hk] at hu
    exact hu.ne_nil rfl

/-- Whether the text is a name that a registry can give. -/
def IsName (n : Text) : Prop := ∃ t k, 1 ≤ k ∧ n = numbered (normalize t) k

namespace IsName

variable {n u : Text} {c : Char}

theorem isNameChar (h : IsName n) (hc : c ∈ n) : IsNameChar c := by
  obtain ⟨t, k, -, rfl⟩ := h
  exact isNameChar_of_mem_numbered hc

theorem notMem (h : IsName n) (hc : isKept c = false) (hs : c ≠ separator) : c ∉ n :=
  fun hmem => (h.isNameChar hmem).ne hc hs rfl

/-- A name that starts with an underscore is a number behind it. -/
theorem isNumber (h : IsName (separator :: u)) : IsNumber u := by
  obtain ⟨t, k, -, hn⟩ := h
  exact (numbered_eq_cons_separator hn.symm).2

end IsName

/-! ## Requests in turn -/

namespace Registry

/-- The name given for a marker starts with the normalized name in the marker, whatever number it
is given. -/
theorem normalize_prefix_assign (r : Registry) (t : Text) : normalize t <+: (r.assign t).1 :=
  prefix_numbered _ _

/-- The registry after requests for the given texts in turn. -/
def assignedAfter (r : Registry) (ts : List Text) : Registry :=
  ts.foldl (fun r t => (r.assign t).2) r

theorem assignAll_append (r : Registry) (ts us : List Text) :
    r.assignAll (ts ++ us) = r.assignAll ts ++ (r.assignedAfter ts).assignAll us := by
  induction ts generalizing r with
  | nil => rfl
  | cons t ts ih => simp [assignAll, ih, assignedAfter]

theorem assignedAfter_append (r : Registry) (ts us : List Text) :
    r.assignedAfter (ts ++ us) = (r.assignedAfter ts).assignedAfter us := by
  simp [assignedAfter]

/-- The name given to one of several requests: its base, numbered by how often that base was asked
for up to then. -/
theorem getElem?_assignAll (r : Registry) (ts : List Text) (i : Nat) :
    (r.assignAll ts)[i]? = ts[i]?.map fun t => numbered (normalize t)
      (r.count (normalize t) + ((ts.take i).map normalize).count (normalize t) + 1) := by
  induction ts generalizing r i with
  | nil => rfl
  | cons t ts ih =>
    cases i with
    | zero => simp [assignAll, assign]
    | succ i =>
      simp only [assignAll, List.getElem?_cons_succ, ih, List.take_succ_cons, List.map_cons,
        List.count_cons]
      congr 1
      funext u
      simp only [count, assign, List.count_cons]
      congr 1
      omega

theorem count_take_lt {ts : List Text} {i j : Nat} {t : Text} (hij : i < j)
    (hi : ts[i]? = some t) : (ts.take i).count t < (ts.take j).count t := by
  -- The first `j` texts hold the first `i` and one more occurrence behind them.
  have hs : (ts.take (i + 1)).Sublist (ts.take j) := List.take_sublist_take_left hij
  have hc := hs.count_le t
  rw [List.take_add_one, hi, List.count_append] at hc
  simp at hc
  omega

/-- Two requests for one base get different names. -/
theorem getElem?_assignAll_ne (r : Registry) {ts : List Text} {i j : Nat} {t u : Text}
    (hij : i < j) (hi : ts[i]? = some t) (hj : ts[j]? = some u)
    (hb : normalize t = normalize u) : (r.assignAll ts)[i]? ≠ (r.assignAll ts)[j]? := by
  intro h
  rw [getElem?_assignAll, getElem?_assignAll, hi, hj] at h
  simp only [Option.map_some, Option.some.injEq, ← hb] at h
  -- The two names have one number, but the base was asked for once more before the second.
  have hk := numbered_injective (by omega) (by omega) h
  have hbi : (ts.map normalize)[i]? = some (normalize t) := by simp [hi]
  have hlt := count_take_lt hij hbi
  simp only [← List.map_take] at hlt
  omega

end Registry

end SectionName

end PagePartials
