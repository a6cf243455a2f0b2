import PagePartials.Marker
import Mathlib.Data.List.Basic

/-!
# Markers and what stands around them

A marker needs the whole of a comment on its line, so the line is not blank, and text without the
characters of an opening or a closing carries none. Nor does such text change the marker of a line
that it is put behind: the comment, if there is one, is complete before it.

## Main definitions

* `Comment.IsApart u`: `u` can take no part in a comment that starts before it
* `IsPlainLine l`: `l` is a line, with its newline, and apart from comments

## Main results

* `Comment.find?_append`: text apart from comments changes no comment before it
* `Marker.ofLine?_append`: nor the marker of a line before it
* `Marker.isBlank_eq_false`: a line with a marker is not blank
-/

namespace PagePartials

namespace Comment

/-! ## Text apart from comments -/

/-- Whether a text can take no part in a comment that starts before it: it has no hyphen, and does
not start with the character that closes a comment. -/
structure IsApart (u : Text) : Prop where
  hyphen_notMem : '-' ∉ u
  head?_ne : u.head? ≠ some '>'

namespace IsApart

variable {u : Text}

theorem not_closing_infix (h : IsApart u) : ¬ closing <:+: u := fun hc =>
  h.hyphen_notMem (hc.subset (by decide))

theorem closes_eq_false (h : IsApart u) : closes u = false := by
  rw [Bool.eq_false_iff]
  exact fun hc => h.not_closing_infix (closing_infix_of_closes hc)

theorem body?_eq_none (h : IsApart u) : body? u = none := by
  rw [Option.eq_none_iff_forall_ne_some]
  exact fun b hb => h.not_closing_infix (closing_infix_of_body? hb)

theorem inside?_eq_none (h : IsApart u) : inside? u = none := by
  rw [Option.eq_none_iff_forall_ne_some]
  exact fun b hb => h.not_closing_infix (closing_infix_of_inside? hb)

theorem find?_eq_none (h : IsApart u) : find? u = none := by
  rw [Option.eq_none_iff_forall_ne_some]
  exact fun b hb => h.not_closing_infix (closing_infix_of_find? hb)

/-- What is left of a closing after its start has a hyphen in it, or is its last character. -/
theorem closing_prefix_append_iff (h : IsApart u) {t : Text} (ht : t ≠ []) :
    closing <+: t ++ u ↔ closing <+: t := by
  refine ⟨fun hc => ?_, fun hc => hc.trans (List.prefix_append t u)⟩
  rcases List.prefix_or_prefix_of_prefix hc (List.prefix_append t u) with hc' | ⟨v, hv⟩
  · exact hc'
  · rw [← hv, List.prefix_append_right_inj] at hc
    -- Only a part of the closing could stand in `t`, and the rest at the start of `u`.
    match t, v with
    | [], _ => exact absurd rfl ht
    | _, [] => exact ⟨[], by simpa using hv.symm⟩
    | [_], v =>
      obtain rfl : v = ['-', '>'] := (List.cons.inj hv).2
      exact absurd (hc.subset (by decide)) h.hyphen_notMem
    | [_, _], v =>
      obtain rfl : v = ['>'] := (List.cons.inj (List.cons.inj hv).2).2
      obtain ⟨w, rfl⟩ := hc
      exact absurd rfl h.head?_ne
    | _ :: _ :: _ :: t, c :: v =>
      have hlen := congrArg List.length hv
      simp [closing] at hlen

/-- What is left of an opening after its start ends with a hyphen. -/
theorem opening_prefix_append_iff (h : IsApart u) (t : Text) :
    opening <+: t ++ u ↔ opening <+: t := by
  refine ⟨fun hc => ?_, fun hc => hc.trans (List.prefix_append t u)⟩
  rcases List.prefix_or_prefix_of_prefix hc (List.prefix_append t u) with hc' | ⟨v, hv⟩
  · exact hc'
  · rw [← hv, List.prefix_append_right_inj] at hc
    cases v with
    | nil => exact ⟨[], by simpa using hv.symm⟩
    | cons c v =>
      have hlast : (c :: v).getLast? = some '-' := by
        have hl := congrArg List.getLast? hv
        rwa [List.getLast?_append_of_ne_nil _ (List.cons_ne_nil c v)] at hl
      exact absurd (hc.subset (List.mem_of_getLast? hlast)) h.hyphen_notMem

end IsApart

/-! ## Comments before such a text -/

variable {u : Text}

theorem closes_append (h : IsApart u) (t : Text) : closes (t ++ u) = closes t := by
  have hd : (t ++ u).trimStart = if t.trimStart.isEmpty then u.trimStart else t.trimStart ++ u :=
    List.dropWhile_append ..
  rw [closes, hd]
  split
  -- Only blanks stand before the text, which does not close a comment.
  next hb =>
    have ht : closes t = false := by rw [closes, List.isEmpty_iff.mp hb]; rfl
    rw [ht]
    exact h.closes_eq_false
  next hb =>
    have hne : t.trimStart ≠ [] := by simpa using hb
    rw [closes, Bool.eq_iff_iff, List.isPrefixOf_iff_prefix, List.isPrefixOf_iff_prefix]
    exact h.closing_prefix_append_iff hne

theorem body?_append (h : IsApart u) (t : Text) : body? (t ++ u) = body? t := by
  induction t with
  | nil => exact h.body?_eq_none
  | cons c t ih => rw [List.cons_append, body?, body?, closes_append h, ih]

theorem inside?_append (h : IsApart u) (t : Text) : inside? (t ++ u) = inside? t := by
  induction t with
  | nil => exact h.inside?_eq_none
  | cons c t ih =>
    have hb : body? (c :: (t ++ u)) = body? (c :: t) := body?_append h (c :: t)
    rw [List.cons_append, inside?_cons, inside?_cons, ih, hb]

/-- **A text apart from comments changes no comment before it.** -/
theorem find?_append (h : IsApart u) (t : Text) : find? (t ++ u) = find? t := by
  induction t with
  | nil => exact h.find?_eq_none
  | cons c t ih =>
    have hafter : (Text.after? opening (c :: t ++ u)).bind inside? =
        (Text.after? opening (c :: t)).bind inside? := by
      cases hr : Text.after? opening (c :: t) with
      | some r =>
        rw [Text.after?_eq_some_iff.mp hr, List.append_assoc, Text.after?_append]
        exact inside?_append h r
      | none =>
        -- An opening that starts before the text ends before it.
        have hno : Text.after? opening (c :: t ++ u) = none := by
          rw [Option.eq_none_iff_forall_ne_some]
          intro r hr'
          have hp : opening <+: c :: t ++ u := ⟨r, (Text.after?_eq_some_iff.mp hr').symm⟩
          obtain ⟨r', hr''⟩ := (h.opening_prefix_append_iff (c :: t)).mp hp
          rw [Text.after?_eq_some_iff.mpr hr''.symm] at hr
          exact Option.some_ne_none _ hr
        rw [hno]
    rw [List.cons_append] at hafter ⊢
    rw [find?, find?, hafter, ih]

theorem opening_infix_of_find? {t b : Text} (h : find? t = some b) : opening <:+: t := by
  induction t with
  | nil => simp [find?] at h
  | cons c t ih =>
    rw [find?] at h
    rcases Option.or_eq_some_iff.mp h with h | ⟨-, h⟩
    · obtain ⟨r, hr, -⟩ := Option.bind_eq_some_iff.mp h
      rw [Text.after?_eq_some_iff.mp hr]
      exact (List.prefix_append opening r).isInfix
    · exact (ih h).trans (List.suffix_cons c t).isInfix

end Comment

/-! ## Plain lines -/

/-- Whether a text is a line, with its newline, that can take no part in a comment. -/
structure IsPlainLine (l : Text) : Prop where
  isApart : Comment.IsApart l
  ended : ∃ w, '\n' ∉ w ∧ l = w ++ ['\n']

theorem IsPlainLine.getLast?_eq {l : Text} (h : IsPlainLine l) : l.getLast? = some '\n' := by
  obtain ⟨w, -, rfl⟩ := h.ended
  simp

/-! ## Markers -/

namespace Marker

variable {u l : Text} {m : Marker}

/-- A text apart from comments does not change the marker of a line before it. -/
theorem ofLine?_append (h : Comment.IsApart u) (l : Text) : ofLine? (l ++ u) = ofLine? l := by
  rw [ofLine?, ofLine?, Comment.text?_eq, Comment.text?_eq, Comment.find?_append h]

/-- A text apart from comments carries no marker. -/
theorem ofLine?_eq_none (h : Comment.IsApart u) : ofLine? u = none :=
  ofLine?_append h []

theorem opening_infix_of_ofLine? (h : ofLine? l = some m) : Comment.opening <:+: l := by
  obtain ⟨t, ht, -⟩ := Option.bind_eq_some_iff.mp h
  rw [Comment.text?_eq] at ht
  obtain ⟨b, hb, -⟩ := Option.map_eq_some_iff.mp ht
  exact Comment.opening_infix_of_find? hb

/-- A line with a marker is not blank. -/
theorem isBlank_eq_false (h : ofLine? l = some m) : Text.isBlank l = false := by
  have hc : '<' ∈ l := (opening_infix_of_ofLine? h).subset (by decide)
  exact Text.isBlank_eq_false_iff.mpr ⟨'<', hc, by decide⟩

end Marker

end PagePartials
