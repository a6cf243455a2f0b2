import PagePartials.Text.Basic
import Mathlib.Data.List.Basic

/-!
# Cutting a text into lines

What makes a list of texts the lines of one text: none of them is empty, a newline stands only at
the end of a line, and every line that another one follows has it. Cutting and joining are then
inverse to each other.

## Main definitions

* `Text.AreLines ls`: `ls` is a list of lines
* `Text.IsEnded t`: `t` is empty or ends with a newline
* `Text.IsWholeLine l`: `l` is a line with its newline

## Main results

* `Text.areLines_lines`: the lines of a text are a list of lines
* `Text.lines_flatten`: a list of lines, joined, is cut back into that list
* `Text.mem_lines_append`: the lines of two texts, one after the other
* `Text.IsEnded.lines_append`: where the first of them is ended, its lines and those of the second
* `Text.cut_of_lines_eq`: a text cut around one of its lines
-/

namespace PagePartials

namespace Text

/-- A list of lines: none is empty, a newline stands only at the end of a line, and every line but
the last one has it there. -/
structure AreLines (ls : List Text) : Prop where
  ne_nil : ∀ l ∈ ls, l ≠ []
  notMem_dropLast : ∀ l ∈ ls, '\n' ∉ l.dropLast
  ended : ls.Pairwise fun l _ => l.getLast? = some '\n'

namespace AreLines

variable {l : Text} {ls ks : List Text}

theorem nil : AreLines [] := ⟨by simp, by simp, .nil⟩

theorem sublist (h : AreLines ls) (hk : ks.Sublist ls) : AreLines ks where
  ne_nil k hk' := h.ne_nil k (hk.subset hk')
  notMem_dropLast k hk' := h.notMem_dropLast k (hk.subset hk')
  ended := h.ended.sublist hk

theorem tail (h : AreLines (l :: ls)) : AreLines ls := h.sublist (List.sublist_cons_self l ls)

/-- A line that another one follows is a text without newlines and the newline behind it. -/
theorem eq_append_newline (h : AreLines (l :: ls)) (hne : ls ≠ []) :
    ∃ w, '\n' ∉ w ∧ l = w ++ ['\n'] := by
  obtain ⟨k, ks, rfl⟩ := List.exists_cons_of_ne_nil hne
  have hlast : l.getLast? = some '\n' := (List.pairwise_cons.mp h.ended).1 k List.mem_cons_self
  exact ⟨l.dropLast, h.notMem_dropLast l List.mem_cons_self,
    (List.dropLast_append_getLast? '\n' hlast).symm⟩

end AreLines

theorem lines_append_newline {w : Text} (hw : '\n' ∉ w) (t : Text) :
    lines (w ++ '\n' :: t) = (w ++ ['\n']) :: lines t := by
  induction w with
  | nil => simp [lines]
  | cons c w ih =>
    rw [List.mem_cons, not_or] at hw
    obtain ⟨hc, hw⟩ := hw
    simp [lines, ih hw, Ne.symm hc]

theorem lines_of_notMem {w : Text} (hne : w ≠ []) (hw : '\n' ∉ w) : lines w = [w] := by
  induction w with
  | nil => exact absurd rfl hne
  | cons c w ih =>
    rw [List.mem_cons, not_or] at hw
    obtain ⟨hc, hw⟩ := hw
    cases w with
    | nil => simp [lines, Ne.symm hc]
    | cons d w =>
      rw [lines, if_neg (Ne.symm hc), ih (by simp) hw]

/-- **The lines of a text are a list of lines.** -/
theorem areLines_lines (t : Text) : AreLines (lines t) := by
  induction t with
  | nil => exact .nil
  | cons c t ih =>
    rw [lines]
    split
    next hc =>
      -- A newline is a line of its own, and others may follow it.
      refine ⟨?_, ?_, ?_⟩
      · simpa using ih.ne_nil
      · simpa using ih.notMem_dropLast
      · exact List.pairwise_cons.mpr ⟨fun k _ => by simp [hc], ih.ended⟩
    next hc =>
      split
      next => exact ⟨by simp, by simp, List.pairwise_singleton ..⟩
      next l ls hl =>
        -- Any other character is put in front of the first line, whose end stays as it is.
        rw [hl] at ih
        have hne : l ≠ [] := ih.ne_nil l List.mem_cons_self
        obtain ⟨hend, hls⟩ := List.pairwise_cons.mp ih.ended
        refine ⟨?_, ?_, ?_⟩
        · simpa using ih.tail.ne_nil
        · have hin := ih.notMem_dropLast l List.mem_cons_self
          have hrest := ih.tail.notMem_dropLast
          simpa [List.dropLast_cons_of_ne_nil hne, Ne.symm hc, hin] using hrest
        · refine List.pairwise_cons.mpr ⟨fun k hk => ?_, hls⟩
          rw [List.getLast?_cons_of_ne_nil hne]
          exact hend k hk

/-- **Cutting undoes joining**: a list of lines, joined, is cut back into that list. -/
theorem lines_flatten {ls : List Text} (h : AreLines ls) : lines ls.flatten = ls := by
  induction ls with
  | nil => rfl
  | cons l ls ih =>
    rcases eq_or_ne ls [] with rfl | hne
    -- The last line may lack its newline.
    · have hl : l ≠ [] := h.ne_nil l List.mem_cons_self
      obtain ⟨w, c, rfl⟩ := List.eq_nil_or_concat' l |>.resolve_left hl
      have hw : '\n' ∉ w := by simpa using h.notMem_dropLast _ List.mem_cons_self
      by_cases hc : c = '\n'
      · simpa [hc] using lines_append_newline hw []
      · simpa using lines_of_notMem hl (by simpa [hw] using Ne.symm hc)
    -- Any other line ends at its newline, and the rest is cut on its own.
    · obtain ⟨w, hw, rfl⟩ := h.eq_append_newline hne
      simp only [List.flatten_cons, List.append_assoc, List.singleton_append]
      rw [lines_append_newline hw, ih h.tail]

/-! ## Lines put together from several lists -/

namespace AreLines

variable {l w : Text} {ls ks : List Text}

/-- Texts without newlines, each with a newline behind it, are lines. -/
theorem of_ended (h : ∀ l ∈ ls, ∃ w, '\n' ∉ w ∧ l = w ++ ['\n']) : AreLines ls where
  ne_nil l hl := by
    obtain ⟨w, -, rfl⟩ := h l hl
    simp
  notMem_dropLast l hl := by
    obtain ⟨w, hw, rfl⟩ := h l hl
    simpa using hw
  ended := List.pairwise_of_forall_mem_list fun l hl _ _ => by
    obtain ⟨w, -, rfl⟩ := h l hl
    simp

/-- A line that does not end with a newline has none. -/
theorem newline_notMem (h : AreLines ls) (hl : l ∈ ls) (hend : l.getLast? ≠ some '\n') :
    '\n' ∉ l := by
  intro hmem
  obtain ⟨w, c, rfl⟩ := List.eq_nil_or_concat' l |>.resolve_left (List.ne_nil_of_mem hmem)
  have hw : '\n' ∉ w := by simpa using h.notMem_dropLast _ hl
  rcases List.mem_append.mp hmem with hn | hn
  · exact hw hn
  · rw [List.getLast?_concat, List.mem_singleton.mp hn] at hend
    exact hend rfl

/-- Lines may follow other ones that all have their newlines. -/
theorem append (h : AreLines ls) (hk : AreLines ks)
    (hend : ks ≠ [] → ∀ l ∈ ls, l.getLast? = some '\n') : AreLines (ls ++ ks) where
  ne_nil l hl := (List.mem_append.mp hl).elim (h.ne_nil l) (hk.ne_nil l)
  notMem_dropLast l hl :=
    (List.mem_append.mp hl).elim (h.notMem_dropLast l) (hk.notMem_dropLast l)
  ended := List.pairwise_append.mpr
    ⟨h.ended, hk.ended, fun l hl _ hk' => hend (List.ne_nil_of_mem hk') l hl⟩

/-- A text without newlines may stand in front of the first line. -/
theorem append_head (h : AreLines (l :: ls)) (hw : '\n' ∉ w) : AreLines ((w ++ l) :: ls) := by
  have hne : l ≠ [] := h.ne_nil l List.mem_cons_self
  obtain ⟨hend, hls⟩ := List.pairwise_cons.mp h.ended
  refine ⟨?_, ?_, List.pairwise_cons.mpr ⟨fun k hk => ?_, hls⟩⟩
  · simpa [hne] using h.tail.ne_nil
  · have hl := h.notMem_dropLast l List.mem_cons_self
    simpa [List.dropLast_append_of_ne_nil hne, hw, hl] using h.tail.notMem_dropLast
  · rw [List.getLast?_append, hend k hk]
    rfl

end AreLines

/-- The lines of two texts one after the other: a line of the first, a line of the second, or the
last line of the first without its newline in front of the first line of the second. -/
theorem mem_lines_append {xs ys : List Text} (hx : AreLines xs) (hy : AreLines ys) {l : Text}
    (hl : l ∈ lines (xs.flatten ++ ys.flatten)) :
    l ∈ xs ∨ l ∈ ys ∨ ∃ x ∈ xs, ∃ y ∈ ys, l = x ++ y := by
  induction xs with
  | nil =>
    rw [List.flatten_nil, List.nil_append, lines_flatten hy] at hl
    exact .inr (.inl hl)
  | cons x xs ih =>
    by_cases hend : x.getLast? = some '\n'
    -- The first line has its newline, so the rest is cut on its own.
    · have hw : '\n' ∉ x.dropLast := hx.notMem_dropLast x List.mem_cons_self
      rw [← List.dropLast_append_getLast? '\n' hend, List.flatten_cons, List.append_assoc,
        List.append_assoc, List.singleton_append, lines_append_newline hw,
        List.dropLast_append_getLast? '\n' hend] at hl
      rcases List.mem_cons.mp hl with rfl | hl
      · exact .inl List.mem_cons_self
      · rcases ih hx.tail hl with h | h | ⟨x', hx', y, hy', h⟩
        · exact .inl (List.mem_cons_of_mem _ h)
        · exact .inr (.inl h)
        · exact .inr (.inr ⟨x', List.mem_cons_of_mem _ hx', y, hy', h⟩)
    -- A line without its newline is the last one.
    · obtain rfl : xs = [] := by
        by_contra hne
        obtain ⟨w, -, rfl⟩ := hx.eq_append_newline hne
        exact hend (by simp)
      have hw : '\n' ∉ x := hx.newline_notMem List.mem_cons_self hend
      cases ys with
      | nil =>
        rw [List.flatten_nil, List.append_nil, lines_flatten hx] at hl
        exact .inl hl
      | cons y ys =>
        have hjoined : [x].flatten ++ (y :: ys).flatten = ((x ++ y) :: ys).flatten := by simp
        rw [hjoined, lines_flatten (hy.append_head hw)] at hl
        rcases List.mem_cons.mp hl with rfl | hl
        · exact .inr (.inr ⟨x, List.mem_cons_self, y, List.mem_cons_self, rfl⟩)
        · exact .inr (.inl (List.mem_cons_of_mem _ hl))

/-! ## Texts that end with a newline -/

/-- Whether the text is empty or ends with a newline. -/
def IsEnded (t : Text) : Prop := t = [] ∨ t.getLast? = some '\n'

theorem lines_of_areLines {l : Text} (h : AreLines [l]) : lines l = [l] := by
  simpa using lines_flatten h

namespace IsEnded

variable {l s t : Text}

/-- Every line of an ended text has its newline. -/
theorem getLast?_eq (h : IsEnded t) (hl : l ∈ lines t) : l.getLast? = some '\n' := by
  obtain ⟨ks, k, hk⟩ := List.eq_nil_or_concat' (lines t) |>.resolve_left (List.ne_nil_of_mem hl)
  have hlines := areLines_lines t
  have htext : t = ks.flatten ++ k := by
    rw [← flatten_lines t, hk]
    simp
  rw [hk] at hl hlines
  rcases List.mem_append.mp hl with hl | hl
  · exact (List.pairwise_append.mp hlines.ended).2.2 l hl k (List.mem_singleton_self k)
  -- The last line ends as the text does.
  · obtain rfl := List.mem_singleton.mp hl
    have hne : l ≠ [] := hlines.ne_nil l (by simp)
    rcases h with h | h
    · exact absurd (List.append_eq_nil_iff.mp (htext.symm.trans h)).2 hne
    · rwa [htext, List.getLast?_append_of_ne_nil _ hne] at h

/-- An ended text takes no part in the lines of what follows it. -/
theorem lines_append (h : IsEnded s) (t : Text) : lines (s ++ t) = lines s ++ lines t := by
  have hboth : AreLines (lines s ++ lines t) :=
    (areLines_lines s).append (areLines_lines t) fun _ _ hl => h.getLast?_eq hl
  rw [← lines_flatten hboth, List.flatten_append, flatten_lines, flatten_lines]

/-- A text without newlines does not go over the end of a line. -/
theorem infix_append_iff {w : Text} (h : IsEnded s) (hw : '\n' ∉ w) :
    w <:+: s ++ t ↔ w <:+: s ∨ w <:+: t := by
  constructor
  · intro hwt
    rcases List.infix_append_iff.mp hwt with hws | hwt | ⟨u, v, rfl, hu, hv⟩
    · exact .inl hws
    · exact .inr hwt
    · rcases eq_or_ne u [] with rfl | hne
      · exact .inr hv.isInfix
      -- What begins in front of the end holds the newline there.
      · exfalso
        obtain ⟨r, rfl⟩ := hu
        rcases h with h | h
        · exact hne (List.append_eq_nil_iff.mp h).2
        · rw [List.getLast?_append_of_ne_nil _ hne] at h
          exact hw (List.mem_append_left _ (List.mem_of_getLast? h))
  · rintro (hws | hwt)
    · exact hws.trans (List.prefix_append s t).isInfix
    · exact hwt.trans (List.suffix_append s t).isInfix

theorem append (hs : IsEnded s) (ht : IsEnded t) : IsEnded (s ++ t) := by
  rcases ht with rfl | ht
  · rwa [List.append_nil]
  · refine .inr ?_
    rw [List.getLast?_append, ht]
    rfl

end IsEnded

/-- Whether the text is a line with its newline. -/
def IsWholeLine (l : Text) : Prop := ∃ w, '\n' ∉ w ∧ l = w ++ ['\n']

namespace IsWholeLine

variable {l : Text} {ls : List Text}

theorem isEnded (h : IsWholeLine l) : IsEnded l := by
  obtain ⟨w, -, rfl⟩ := h
  exact .inr (by simp)

theorem flatMap_lines (h : ∀ l ∈ ls, IsWholeLine l) : ls.flatMap lines = ls := by
  have hone : ∀ l ∈ ls, lines l = [l] := fun l hl =>
    lines_of_areLines (.of_ended (List.forall_mem_singleton.mpr (h l hl)))
  rw [List.flatMap_congr hone]
  simp

end IsWholeLine

/-- Every line of an ended text is a line with its newline. -/
theorem IsEnded.isWholeLine {l t : Text} (h : IsEnded t) (hl : l ∈ lines t) : IsWholeLine l :=
  ⟨l.dropLast, (areLines_lines t).notMem_dropLast l hl,
    (List.dropLast_append_getLast? '\n' (h.getLast?_eq hl)).symm⟩

theorem isEnded_flatten {ts : List Text} (h : ∀ t ∈ ts, IsEnded t) : IsEnded ts.flatten := by
  induction ts with
  | nil => exact .inl rfl
  | cons t ts ih =>
    obtain ⟨ht, hts⟩ := List.forall_mem_cons.mp h
    exact ht.append (ih hts)

/-- The lines of ended texts, joined, are the lines of the texts. -/
theorem lines_flatten_of_isEnded {ts : List Text} (h : ∀ t ∈ ts, IsEnded t) :
    lines ts.flatten = ts.flatMap lines := by
  induction ts with
  | nil => rfl
  | cons t ts ih =>
    obtain ⟨ht, hts⟩ := List.forall_mem_cons.mp h
    rw [List.flatten_cons, ht.lines_append, ih hts, List.flatMap_cons]

/-- A text cut around one of its lines: what stands before it is ended, and so it is with the line,
unless that is the last one. -/
theorem cut_of_lines_eq {t l : Text} {before after : List Text}
    (h : lines t = before ++ l :: after) :
    IsEnded before.flatten ∧ AreLines [l] ∧ t = before.flatten ++ l ++ after.flatten ∧
      (IsEnded (before.flatten ++ l) ∨ after.flatten = []) := by
  have hall : AreLines (before ++ l :: after) := h ▸ areLines_lines t
  obtain ⟨-, hbehind, hbefore⟩ := List.pairwise_append.mp hall.ended
  have hended : IsEnded before.flatten :=
    isEnded_flatten fun k hk => .inr (hbefore k hk l List.mem_cons_self)
  refine ⟨hended, ?_, ?_, ?_⟩
  · have hmem : [l].Sublist (l :: after) := List.singleton_sublist.mpr List.mem_cons_self
    exact hall.sublist (hmem.trans (List.sublist_append_right ..))
  · rw [← flatten_lines t, h]
    simp
  · rcases after with _ | ⟨k, after⟩
    · exact .inr rfl
    · have hl := (List.pairwise_cons.mp hbehind).1 k List.mem_cons_self
      exact .inl (hended.append (.inr hl))

end Text

end PagePartials
