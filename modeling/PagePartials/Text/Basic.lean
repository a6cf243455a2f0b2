/-!
# Texts

A text is the list of its characters. This module holds the searching, cutting and joining that
everything else is written in: what follows a given beginning, whether one text occurs in
another, the lines of a text, and the pieces between separators.

## Main definitions

* `Text`: a list of characters
* `Text.after? w t`: what follows `w` at the start of `t`
* `Text.occursIn w t`: whether `w` occurs somewhere in `t`
* `Text.lines t`: the lines of `t`, each with the newline that ends it
* `Text.pieces c t`: the pieces of `t` between occurrences of `c`

## Main results

* `Text.after?_eq_some_iff`: `after?` finds exactly the splittings `t = w ++ r`
* `Text.occursIn_iff`: `occursIn` decides the infix relation
* `Text.flatten_lines`: the lines of a text, joined, are the text
* `Text.intercalate_pieces`: the pieces of a text, joined by the separator, are the text
-/

namespace PagePartials

/-- A list of characters. -/
abbrev Text := List Char

namespace Text

/-! ## Searching -/

/-- What follows `w` in a text that starts with `w`. -/
def after? : Text → Text → Option Text
  | [], t => some t
  | _ :: _, [] => none
  | a :: w, c :: t => if a = c then after? w t else none

theorem after?_append (w t : Text) : after? w (w ++ t) = some t := by
  induction w with
  | nil => rfl
  | cons a w ih => simp [after?, ih]

theorem after?_eq_some_iff {w t r : Text} : after? w t = some r ↔ t = w ++ r := by
  constructor
  · intro h
    fun_induction after? w t with
    | case1 t => simp_all
    | case2 => simp at h
    | case3 a w t ih => simp [ih h]
    | case4 => simp at h
  · rintro rfl
    exact after?_append w r

/-- Whether the first text occurs somewhere in the second. -/
def occursIn (w : Text) : Text → Bool
  | [] => w.isEmpty
  | c :: t => w.isPrefixOf (c :: t) || occursIn w t

theorem occursIn_iff {w t : Text} : occursIn w t = true ↔ w <:+: t := by
  induction t with
  | nil => simp [occursIn]
  | cons c t ih => simp [occursIn, ih, List.infix_cons_iff]

/-! ## Lines -/

/-- The lines of a text, each with the newline that ends it; only the last may lack one. -/
def lines : Text → List Text
  | [] => []
  | c :: t =>
    if c = '\n' then [c] :: lines t
    else match lines t with
      | [] => [[c]]
      | l :: ls => (c :: l) :: ls

@[simp] theorem lines_nil : lines [] = [] := rfl

theorem flatten_lines (t : Text) : (lines t).flatten = t := by
  induction t with
  | nil => rfl
  | cons c t ih =>
    rw [lines]
    split
    · simp [ih]
    · split <;> simp_all

/-! ## Pieces -/

/-- The pieces of a text between the occurrences of a separator. -/
def pieces (sep : Char) : Text → List Text
  | [] => [[]]
  | c :: t =>
    if c = sep then [] :: pieces sep t
    else match pieces sep t with
      | [] => [[c]]
      | p :: ps => (c :: p) :: ps

theorem pieces_ne_nil (sep : Char) (t : Text) : pieces sep t ≠ [] := by
  cases t with
  | nil => simp [pieces]
  | cons c t =>
    rw [pieces]
    split
    · simp
    · split <;> simp

theorem intercalate_pieces (sep : Char) (t : Text) : [sep].intercalate (pieces sep t) = t := by
  induction t with
  | nil => rfl
  | cons c t ih =>
    rw [pieces]
    cases h : pieces sep t with
    | nil => exact absurd h (pieces_ne_nil sep t)
    | cons p ps =>
      rw [h] at ih
      by_cases hc : c = sep
      · simp [hc, List.intercalate_cons_cons, ih]
      · cases ps with
        | nil => simpa [hc] using ih
        | cons q qs => simpa [hc, List.intercalate_cons_cons] using ih

/-- The text with every occurrence of one character replaced by another. -/
def replace (old new : Char) (t : Text) : Text := t.map fun c => if c = old then new else c

end Text

end PagePartials
