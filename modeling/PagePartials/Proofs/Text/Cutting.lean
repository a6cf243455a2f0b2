import PagePartials.Text.Blank
import Mathlib.Data.List.DropRight
import Mathlib.Data.List.Infix

/-!
# Texts cut and trimmed

A text is cut in two at the first place where another one occurs. If no part of the other is both
its beginning and its end, what is put before it, and does not hold it, comes back whole. Trimming
takes the blanks away from the ends, and nothing that stands between other characters.

## Main definitions

* `Text.cut? w t`: what stands before and behind the first occurrence of `w` in `t`
* `Text.IsUnbordered w`: no part of `w` is both its beginning and its end

## Main results

* `Text.cut?_eq_some_iff`: `cut?` finds the first occurrence
* `Text.cut?_append`: a text cut at what was put behind it
* `Text.trim_eq_nil_iff`: trimming leaves nothing just of blanks
* `Text.trim_append`: a trimmed text with blanks before it
-/

namespace PagePartials

namespace Text

variable {w t u v b r s n : Text} {c : Char}

/-! ## First occurrences -/

/-- What stands before and behind the first occurrence of the first text in the second. -/
def cut? (w : Text) : Text → Option (Text × Text)
  | [] => if w = [] then some ([], []) else none
  | c :: t =>
    match after? w (c :: t) with
    | some r => some ([], r)
    | none => (cut? w t).map fun p => (c :: p.1, p.2)

theorem cut?_cons_of_eq_none (h : after? w (c :: t) = none) :
    cut? w (c :: t) = (cut? w t).map fun p => (c :: p.1, p.2) := by
  rw [cut?, h]

theorem cut?_eq_none_iff : cut? w t = none ↔ ¬ w <:+: t := by
  induction t with
  | nil => simp [cut?]
  | cons c t ih =>
    rw [List.infix_cons_iff, not_or, ← ih]
    cases h : after? w (c :: t) with
    | some r =>
      have hp : w <+: c :: t := ⟨r, (after?_eq_some_iff.mp h).symm⟩
      simp [cut?, h, hp]
    | none =>
      have hno : ¬ w <+: c :: t := by
        rintro ⟨r, hr⟩
        rw [after?_eq_some_iff.mpr hr.symm] at h
        exact Option.some_ne_none r h
      simp [cut?_cons_of_eq_none h, hno]

theorem eq_append_of_cut? (h : cut? w t = some (b, r)) : t = b ++ (w ++ r) := by
  induction t generalizing b with
  | nil =>
    by_cases hw : w = []
    · obtain ⟨rfl, rfl⟩ : b = [] ∧ r = [] := by simpa [cut?, hw, eq_comm] using h
      simp [hw]
    · simp [cut?, hw] at h
  | cons c t ih =>
    cases ha : after? w (c :: t) with
    | some r' =>
      obtain ⟨rfl, rfl⟩ : [] = b ∧ r' = r := by simpa [cut?, ha] using h
      rw [List.nil_append]
      exact after?_eq_some_iff.mp ha
    | none =>
      rw [cut?_cons_of_eq_none ha] at h
      obtain ⟨⟨b', r'⟩, hp, heq⟩ := Option.map_eq_some_iff.mp h
      obtain ⟨rfl, rfl⟩ := Prod.mk.inj heq
      rw [ih hp, List.cons_append]

theorem length_le_of_cut? (h : cut? w t = some (b, r)) (ht : t = u ++ (w ++ v)) :
    b.length ≤ u.length := by
  induction t generalizing b u with
  | nil =>
    have hb := congrArg List.length (eq_append_of_cut? h)
    simp only [List.length_nil, List.length_append] at hb
    omega
  | cons c t ih =>
    cases ha : after? w (c :: t) with
    | some r' =>
      obtain ⟨rfl, -⟩ : [] = b ∧ r' = r := by simpa [cut?, ha] using h
      exact Nat.zero_le _
    | none =>
      rw [cut?_cons_of_eq_none ha] at h
      obtain ⟨⟨b', r'⟩, hp, heq⟩ := Option.map_eq_some_iff.mp h
      obtain ⟨rfl, rfl⟩ := Prod.mk.inj heq
      cases u with
      | nil => exact nomatch ha.symm.trans (after?_eq_some_iff.mpr ht)
      | cons a u => exact Nat.succ_le_succ (ih hp (List.cons.inj ht).2)

/-- **The first occurrence** is the one that the least text stands before. -/
theorem cut?_eq_some_iff : cut? w t = some (b, r) ↔
    t = b ++ (w ++ r) ∧ ∀ u v, t = u ++ (w ++ v) → b.length ≤ u.length := by
  constructor
  · exact fun h => ⟨eq_append_of_cut? h, fun _ _ => length_le_of_cut? h⟩
  · rintro ⟨ht, hleast⟩
    cases h : cut? w t with
    | none => exact absurd ⟨b, r, by rw [ht, List.append_assoc]⟩ (cut?_eq_none_iff.mp h)
    | some p =>
      obtain ⟨b', r'⟩ := p
      have ht' := eq_append_of_cut? h
      have hlen : b.length = b'.length :=
        Nat.le_antisymm (hleast _ _ ht') (length_le_of_cut? h ht)
      obtain ⟨rfl, heq⟩ := List.append_inj (ht.symm.trans ht') hlen
      rw [List.append_cancel_left heq]

/-- Whether no part of the text, but nothing and the whole, is both its beginning and its end. So
two occurrences of it never overlap. -/
def IsUnbordered (w : Text) : Prop := ∀ d, d <:+ w → d <+: w → d = [] ∨ d = w

instance (w : Text) : Decidable w.IsUnbordered :=
  decidable_of_iff (∀ d ∈ w.tails, d <+: w → d = [] ∨ d = w) (by simp [IsUnbordered])

theorem cut?_append (hw : w.IsUnbordered) (h : ¬ w <:+: v) (r : Text) :
    cut? w (v ++ (w ++ r)) = some (v, r) := by
  refine cut?_eq_some_iff.mpr ⟨rfl, fun u r' heq => ?_⟩
  rcases List.append_eq_append_iff.mp heq with ⟨a, rfl, -⟩ | ⟨a, rfl, hw'⟩
  · simp
  -- An occurrence that starts earlier has its end in the one behind `v`, or in `v`.
  · rcases List.append_eq_append_iff.mp hw' with ⟨d, rfl, -⟩ | ⟨d, hd, hr⟩
    · exact absurd ⟨u, d, by simp⟩ h
    · have hsuffix : d <:+ w := ⟨a, hd.symm⟩
      have hbegin : d <+: w :=
        List.prefix_of_prefix_length_le ⟨r', hr.symm⟩ (List.prefix_append w r) hsuffix.length_le
      rcases hw d hsuffix hbegin with hd' | hd'
      · exact absurd ⟨u, [], by simp [hd, hd']⟩ h
      · have ha : a = [] := by simpa [hd'] using hd
        simp [ha]

/-- A text whose first character does not come before another text begins in that text. -/
theorem infix_of_infix_append (hc : c ∉ b) (h : c :: w <:+: b ++ t) : c :: w <:+: t := by
  induction b with
  | nil => exact h
  | cons a b ih =>
    rw [List.mem_cons, not_or] at hc
    obtain ⟨hne, hc⟩ := hc
    rw [List.cons_append, List.infix_cons_iff] at h
    exact h.elim (fun hp => absurd (List.cons_prefix_cons.mp hp).1 hne) (ih hc)

/-! ## Trimming -/

theorem notMem_of_isBlank (hs : s.isBlank = true) (hc : PagePartials.isBlank c = false) :
    c ∉ s := by
  intro hmem
  have hblank : PagePartials.isBlank c = true := by
    simp only [isBlank, List.all_eq_true] at hs
    exact hs c hmem
  rw [hc] at hblank
  exact Bool.false_ne_true hblank

theorem trimStart_append_of_isBlank (hs : s.isBlank = true) (t : Text) :
    trimStart (s ++ t) = trimStart t :=
  List.dropWhile_append_of_pos (by simpa [isBlank] using hs)

theorem trimEnd_append_of_isBlank (hs : s.isBlank = true) (t : Text) :
    trimEnd (t ++ s) = trimEnd t := by
  have hs' : ∀ c ∈ s.reverse, PagePartials.isBlank c = true := by simpa [isBlank] using hs
  rw [trimEnd, trimEnd, List.reverse_append, List.dropWhile_append_of_pos hs']

/-- What stands before the last character that is not blank stays. -/
theorem trimEnd_append (h : trimEnd t ≠ []) (s : Text) : trimEnd (s ++ t) = s ++ trimEnd t := by
  have hne : ¬ (t.reverse.dropWhile PagePartials.isBlank).isEmpty = true := by
    simpa [trimEnd] using h
  rw [trimEnd, List.reverse_append, List.dropWhile_append, if_neg hne, List.reverse_append,
    List.reverse_reverse]
  rfl

theorem trimEnd_eq_nil_iff : trimEnd t = [] ↔ t.isBlank = true := by
  simp [trimEnd, isBlank, List.dropWhile_eq_nil_iff]

theorem isBlank_trimStart (t : Text) : (trimStart t).isBlank = t.isBlank := by
  have hblank : isBlank (t.takeWhile PagePartials.isBlank) = true := List.all_takeWhile
  calc (trimStart t).isBlank
    _ = isBlank (t.takeWhile PagePartials.isBlank ++ t.dropWhile PagePartials.isBlank) := by
        rw [isBlank_append, hblank, Bool.true_and, trimStart]
    _ = t.isBlank := by rw [List.takeWhile_append_dropWhile]

/-- Trimming leaves nothing just of a text that holds nothing but blanks. -/
theorem trim_eq_nil_iff : trim t = [] ↔ t.isBlank = true := by
  rw [trim, trimEnd_eq_nil_iff, isBlank_trimStart]

theorem trimEnd_cons_congr (h : trimEnd s = trimEnd t) (c : Char) :
    trimEnd (c :: s) = trimEnd (c :: t) := by
  by_cases ht : trimEnd t = []
  · have hs : s.isBlank = true := trimEnd_eq_nil_iff.mp (h.trans ht)
    rw [← List.singleton_append, trimEnd_append_of_isBlank hs,
      ← List.singleton_append (l := t), trimEnd_append_of_isBlank (trimEnd_eq_nil_iff.mp ht)]
  · rw [← List.singleton_append, trimEnd_append (h ▸ ht), ← List.singleton_append (l := t),
      trimEnd_append ht, h]

theorem trim_cons (hc : PagePartials.isBlank c = false) (t : Text) :
    trim (c :: t) = trimEnd (c :: t) := by
  rw [trim, trimStart, List.dropWhile_cons_of_neg (by simp [hc])]

/-- A trimmed text has no blanks at its two ends. -/
theorem trimStart_eq_of_trim_eq (h : trim t = t) : trimStart t = t ∧ trimEnd t = t := by
  have hsuffix : trimStart t <:+ t := List.dropWhile_suffix _
  have hle : (trim t).length ≤ (trimStart t).length :=
    (List.rdropWhile_prefix PagePartials.isBlank (l := trimStart t)).length_le
  rw [h] at hle
  have hstart : trimStart t = t := hsuffix.eq_of_length_le hle
  rw [trim, hstart] at h
  exact ⟨hstart, h⟩

/-- A trimmed text does not begin with a blank. -/
theorem isBlank_of_trim_cons_eq (h : trim (c :: t) = c :: t) :
    PagePartials.isBlank c = false := by
  have hstart := (trimStart_eq_of_trim_eq h).1
  by_contra hc
  rw [trimStart, List.dropWhile_cons_of_pos (by simpa using hc)] at hstart
  have hsuffix : c :: t <:+ t := hstart ▸ List.dropWhile_suffix _
  exact absurd hsuffix.length_le (by simp)

/-- A trimmed text is what trimming leaves of it with blanks before it. -/
theorem trim_append (hs : s.isBlank = true) (hn : trim n = n) : trim (s ++ n) = n := by
  rw [trim, trimStart_append_of_isBlank hs]
  exact hn

end Text

end PagePartials
