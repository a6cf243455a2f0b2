import PagePartials.Path
import PagePartials.Proofs.Text.Pieces

/-!
# Paths and their texts

A path that starts from here, through names that hold no slash and mean something, is read back
from its text.

## Main results

* `Path.ofText_toText`: such a path is read back
-/

namespace PagePartials

theorem Anchor.ofText_cons_of_ne {c : Char} (h : c ≠ '/') (t : Text) :
    ofText (c :: t) = .relative := by
  unfold ofText
  split
  next heq => exact absurd (List.cons.inj heq).1 h
  next heq => exact absurd (List.cons.inj heq).1 h
  next heq => exact absurd (List.cons.inj heq).1 h
  next => rfl

namespace Path

variable {p : Path}

/-- Whether the path starts from here and goes through names only, none of which holds a slash. -/
structure IsProper (p : Path) : Prop where
  relative : p.anchor = .relative
  isName : ∀ n ∈ p.names, Path.isName n = true
  slash_notMem : ∀ n ∈ p.names, '/' ∉ n

/-- A proper path is read back from its text. -/
theorem IsProper.ofText_toText (h : p.IsProper) : ofText p.toText = p := by
  obtain ⟨a, names⟩ := p
  obtain ⟨rfl, hname, hslash⟩ := h
  rcases names with _ | ⟨n, ns⟩
  · rfl
  have ht : toText ⟨.relative, n :: ns⟩ = ['/'].intercalate (n :: ns) := rfl
  obtain ⟨c, w, rfl⟩ : ∃ c w, n = c :: w := by
    apply List.exists_cons_of_ne_nil
    rintro rfl
    exact absurd (hname [] List.mem_cons_self) (by decide)
  have hc : c ≠ '/' := by
    rintro rfl
    exact hslash _ List.mem_cons_self List.mem_cons_self
  have hanchor : Anchor.ofText (['/'].intercalate ((c :: w) :: ns)) = .relative := by
    cases ns with
    | nil => simpa using Anchor.ofText_cons_of_ne hc w
    | cons m ms =>
      rw [List.intercalate_cons_cons]
      exact Anchor.ofText_cons_of_ne hc _
  rw [ht, ofText, hanchor, Text.pieces_intercalate_of_notMem (by simp) hslash,
    List.filter_eq_self.mpr hname]

end Path

end PagePartials
