import PagePartials.Text.Basic
import Mathlib.Data.List.Basic

/-!
# Joining and cutting at a separator

The pieces of a text that was put together from others with a separator between them are the pieces
of those others. Texts without the separator come back as they were.

## Main results

* `Text.length_pieces`: how many pieces there are
* `Text.pieces_intercalate`: the pieces of joined texts are the pieces of the texts
* `Text.pieces_intercalate_of_notMem`: texts without the separator are the pieces of what they join
  to
* `Text.intercalate_inj`: joined texts are equal just if their pieces are
* `Text.replace_intercalate`: replacing the separator of joined texts
-/

namespace PagePartials

namespace Text

variable {sep : Char}

theorem pieces_append_cons (w t : Text) :
    pieces sep (w ++ sep :: t) = pieces sep w ++ pieces sep t := by
  induction w with
  | nil => simp [pieces]
  | cons c w ih =>
    obtain ⟨p, ps, hp⟩ := List.exists_cons_of_ne_nil (pieces_ne_nil sep w)
    rw [hp] at ih
    by_cases hc : c = sep <;> simp [pieces, hc, ih, hp]

theorem pieces_of_notMem {w : Text} (h : sep ∉ w) : pieces sep w = [w] := by
  induction w with
  | nil => rfl
  | cons c w ih =>
    rw [List.mem_cons, not_or] at h
    simp [pieces, Ne.symm h.1, ih h.2]

/-- There is one piece more than there are separators. -/
theorem length_pieces (sep : Char) (t : Text) : (pieces sep t).length = t.count sep + 1 := by
  induction t with
  | nil => rfl
  | cons c t ih =>
    obtain ⟨p, ps, hp⟩ := List.exists_cons_of_ne_nil (pieces_ne_nil sep t)
    rw [hp] at ih
    by_cases hc : c = sep
    · subst hc
      simp [pieces, hp, ih]
    · simpa [pieces, hc, hp] using ih

/-- The pieces of joined texts are the pieces of the texts. -/
theorem pieces_intercalate {ts : List Text} (hne : ts ≠ []) :
    pieces sep ([sep].intercalate ts) = ts.flatMap (pieces sep) := by
  induction ts with
  | nil => exact absurd rfl hne
  | cons t ts ih =>
    cases ts with
    | nil => simp
    | cons u us =>
      rw [List.intercalate_cons_cons, List.append_assoc, List.singleton_append,
        pieces_append_cons, ih (by simp)]
      rfl

/-- Texts without the separator are the pieces of what they join to. -/
theorem pieces_intercalate_of_notMem {ts : List Text} (hne : ts ≠ []) (h : ∀ t ∈ ts, sep ∉ t) :
    pieces sep ([sep].intercalate ts) = ts := by
  rw [pieces_intercalate hne]
  calc ts.flatMap (pieces sep) = ts.flatMap (fun t => [t]) :=
        List.flatMap_congr fun t ht => pieces_of_notMem (h t ht)
    _ = ts := by simp

theorem mem_intercalate {c : Char} {ts : List Text} (h : c ∈ [sep].intercalate ts) :
    c = sep ∨ ∃ t ∈ ts, c ∈ t := by
  induction ts with
  | nil => simp at h
  | cons t ts ih =>
    cases ts with
    | nil => exact .inr ⟨t, List.mem_cons_self, by simpa using h⟩
    | cons u us =>
      rw [List.intercalate_cons_cons, List.mem_append, List.mem_append, List.mem_singleton] at h
      rcases h with (h | h) | h
      · exact .inr ⟨t, List.mem_cons_self, h⟩
      · exact .inl h
      · rcases ih h with h | ⟨w, hw, hc⟩
        · exact .inl h
        · exact .inr ⟨w, List.mem_cons_of_mem _ hw, hc⟩

/-- Joined texts are equal just if their pieces are. -/
theorem intercalate_inj {ts us : List Text} (ht : ts ≠ []) (hu : us ≠ []) :
    [sep].intercalate ts = [sep].intercalate us ↔
      ts.flatMap (pieces sep) = us.flatMap (pieces sep) := by
  constructor
  · intro h
    rw [← pieces_intercalate ht, h, pieces_intercalate hu]
  -- Joining the pieces gives the joined texts back.
  · intro h
    rw [← intercalate_pieces sep ([sep].intercalate ts), pieces_intercalate ht, h,
      ← pieces_intercalate hu, intercalate_pieces]

theorem replace_of_notMem {old new : Char} {t : Text} (h : old ∉ t) :
    Text.replace old new t = t := by
  unfold replace
  calc t.map (fun c => if c = old then new else c) = t.map id :=
        List.map_congr_left fun c hc => if_neg (by rintro rfl; exact h hc)
    _ = t := List.map_id t

/-- After replacing, there is the new character, and what else there was but the old one. -/
theorem mem_replace {old new c : Char} {t : Text} (h : c ∈ Text.replace old new t) :
    c = new ∨ c ≠ old ∧ c ∈ t := by
  obtain ⟨d, hd, rfl⟩ := List.mem_map.mp h
  by_cases hold : d = old
  · exact .inl (if_pos hold)
  · rw [if_neg hold]
    exact .inr ⟨hold, hd⟩

/-- Replacing the separator of joined texts joins them with the other one. -/
theorem replace_intercalate {old new : Char} {ts : List Text} (h : ∀ t ∈ ts, old ∉ t) :
    Text.replace old new ([old].intercalate ts) = [new].intercalate ts := by
  induction ts with
  | nil => rfl
  | cons t ts ih =>
    obtain ⟨ht, hts⟩ := List.forall_mem_cons.mp h
    cases ts with
    | nil => simpa using replace_of_notMem ht
    | cons u us =>
      have hr : Text.replace old new t = t := replace_of_notMem ht
      have hu := ih hts
      unfold replace at hr hu ⊢
      simp [List.intercalate_cons_cons, hr, hu]

end Text

end PagePartials
