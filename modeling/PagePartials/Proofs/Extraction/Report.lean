import PagePartials.Proofs.Document.Unterminated
import PagePartials.Proofs.Extraction.Partials

/-!
# What is reported about a page

The summary of a page counts its sections, its partials and its sections without an end marker, the
last only if there are any. Those sections are one chain, from the last of the outermost sections
inwards, and each of them is noticed while the page is read.

## Main results

* `Outline.pieces_summary_eq`: the lines of a summary
* `Extraction.unterminated_chain`: sections without an end marker, and what is reported about them
-/

namespace PagePartials

/-! ## The summary -/

namespace Outline

variable {o : Outline} {source : Option Text}

theorem newline_notMem_toDigits (n : Nat) : '\n' ∉ Nat.toDigits 10 n := fun h =>
  absurd (SectionName.isKept_of_mem_toDigits h) (by decide)

/-- The lines of a summary. -/
theorem pieces_summary_eq (o : Outline) (source : Option Text) (n : Nat) :
    Text.pieces '\n' (o.summary source n) =
      (if source.getD [] = [] then []
        else Text.pieces '\n' ("Source: ".toList ++ source.getD [])) ++
        ["Sections: ".toList ++ Nat.toDigits 10 o.all.length,
          "Partials: ".toList ++ Nat.toDigits 10 n] ++
        (if o.unterminated.length = 0 then []
          else ["Unterminated: ".toList ++ Nat.toDigits 10 o.unterminated.length]) := by
  have hword {w : Text} (hw : '\n' ∉ w) (k : Nat) :
      Text.pieces '\n' (w ++ Nat.toDigits 10 k) = [w ++ Nat.toDigits 10 k] :=
    Text.pieces_of_notMem (List.not_mem_append hw (newline_notMem_toDigits k))
  rw [summary, Text.pieces_intercalate]
  · rw [List.flatMap_append, List.flatMap_append, List.flatMap_cons, List.flatMap_singleton,
      hword (by decide), hword (by decide)]
    congr 1
    · congr 1
      split
      · rfl
      · exact List.flatMap_singleton ..
    · split
      · rfl
      · rw [List.flatMap_singleton, hword (by decide)]
  · intro h
    exact List.cons_ne_nil _ _
      (List.append_eq_nil_iff.mp (List.append_eq_nil_iff.mp h).1).2

/-- The lines of a summary, for a source whose name stands on one line. -/
theorem pieces_summary (hsource : '\n' ∉ source.getD []) (n : Nat) :
    Text.pieces '\n' (o.summary source n) =
      (if source.getD [] = [] then [] else ["Source: ".toList ++ source.getD []]) ++
        ["Sections: ".toList ++ Nat.toDigits 10 o.all.length,
          "Partials: ".toList ++ Nat.toDigits 10 n] ++
        (if o.unterminated.length = 0 then []
          else ["Unterminated: ".toList ++ Nat.toDigits 10 o.unterminated.length]) := by
  have hline : Text.pieces '\n' ("Source: ".toList ++ source.getD []) =
      ["Source: ".toList ++ source.getD []] :=
    Text.pieces_of_notMem (List.not_mem_append (by decide) hsource)
  rw [pieces_summary_eq, hline]

/-- A summary has a line about sections without an end marker just if there are any, and the line
gives their number. -/
theorem mem_pieces_summary_iff (hsource : '\n' ∉ source.getD []) (n k : Nat) :
    "Unterminated: ".toList ++ Nat.toDigits 10 k ∈ Text.pieces '\n' (o.summary source n) ↔
      k = o.unterminated.length ∧ 0 < k := by
  rw [pieces_summary hsource, List.mem_append, List.mem_append]
  -- The other lines begin with other letters.
  have hletter {w u v : Text} (h : "Unterminated: ".toList ++ u = w ++ v) (hw : w ≠ []) :
      w.head? = some 'U' := by
    have hh := congrArg List.head? h
    rw [List.head?_append_of_ne_nil _ hw] at hh
    exact hh.symm
  constructor
  · rintro ((h | h) | h)
    · split at h
      · exact absurd h List.not_mem_nil
      · exact absurd (hletter (List.mem_singleton.mp h) (by decide)) (by decide)
    · rcases List.mem_pair.mp h with h | h
      · exact absurd (hletter h (by decide)) (by decide)
      · exact absurd (hletter h (by decide)) (by decide)
    · split at h
      next => exact absurd h List.not_mem_nil
      next hpos =>
        have hk := SectionName.toDigits_injective
          (List.append_cancel_left (List.mem_singleton.mp h))
        exact ⟨hk, by omega⟩
  · rintro ⟨rfl, hpos⟩
    rw [if_neg (Nat.pos_iff_ne_zero.mp hpos)]
    exact .inr (List.mem_singleton_self _)

end Outline

/-! ## Sections without an end marker -/

namespace Extraction

theorem unterminated_outline (d : Document) : d.outline.unterminated = d.unterminated := rfl

/-- **The sections without an end marker are one chain, and are reported as such.** Numbered as they
begin, the first of them is the last of the outermost sections, and each of the others the last
section right inside the one before it; they are all the sections without an end marker, and
whatever encloses one of them is one of them. The page itself is never closed: however far its lines
are read, no more sections have been ended than begun. There is one notice for each of these
sections, in their order, with the section's path in its message; and the summary gives their number
just if there are any. -/
theorem unterminated_chain (t : Text) (source : Option Text) :
    (none :: (Document.ofText t).openNumbers.map some).IsChain
      (fun p q => ((Document.ofText t).body.childNumbers p).getLast? = q) ∧
    (Document.ofText t).unterminated =
      (Document.ofText t).openNumbers.filterMap ((Document.ofText t).sections[·]?) ∧
    (∀ (i : Nat) (s : PlacedSection), (Document.ofText t).sections[i]? = some s →
      (s.endComment = none ↔ i ∈ (Document.ofText t).openNumbers)) ∧
    (∀ i j, (Document.ofText t).Encloses i j → j ∈ (Document.ofText t).openNumbers →
      i ∈ (Document.ofText t).openNumbers) ∧
    (∀ ls, ls <+: (Document.ofText t).body.allLines →
      ((⟨.empty, []⟩ : Progress).readAll ls).1.countP Event.ends ≤
        ((⟨.empty, []⟩ : Progress).readAll ls).1.countP Event.begins) ∧
    ∃ notices e, ofText t source = (notices, .ok e) ∧
      (notices.filter Notice.isUnterminated).map Notice.line =
        ((Document.ofText t).unterminated.map fun s =>
          "DEBUG:htmlpartials.parser:Section ".toList ++ s.fullPath ++
            " has no end marker".toList) ∧
      ('\n' ∉ source.getD [] → ∀ k,
        ("Unterminated: ".toList ++ Nat.toDigits 10 k ∈ Text.pieces '\n' e.summary ↔
          k = (Document.ofText t).unterminated.length ∧ 0 < k)) := by
  refine ⟨Document.isChain_openNumbers t, Document.unterminated_eq _, ?_, ?_, ?_, ?_⟩
  · intro i s hs
    rw [Document.mem_openNumbers_iff]
    constructor
    · exact fun he => ⟨s, hs, he⟩
    · rintro ⟨u, hu, he⟩
      obtain rfl := Option.some.inj (hs.symm.trans hu)
      exact he
  · exact fun i j => Document.mem_openNumbers_of_encloses
  · exact fun ls _ => Progress.closings_le_openings .empty ls
  · refine ⟨_, _, ofText_eq t source, ?_, fun hsource k => ?_⟩
    · rw [Reading.filter_isUnterminated_notices, List.map_map]
      rfl
    · rw [Outline.mem_pieces_summary_iff hsource, unterminated_outline]

end Extraction

end PagePartials
