import PagePartials.Proofs.Extraction.Dangling
import PagePartials.Proofs.Text.Cutting

/-!
# Closing tags in an index

An index gets the closing tags if one of them does not occur in what stands before, header and
include lines. But it is the header alone that counts. Whatever sections are called, the name of a
partial has no slash in it, so the only slash of an include line is the one behind `partials`, and no
tag has its slash there. And a tag has no newline, so it does not go from one line on into the next.

## Main results

* `PlacedSection.not_infix_includeLine`: no include line has a closing tag in it
* `infix_openIndex_iff`: the closing tags before the end of an index are those of its header
* `indexOf_eq_append`: an index, from its header and its sections
-/

namespace PagePartials

/-! ## Include lines of any sections -/

/-- A closing tag begins with a slash behind an angle bracket, and stands on one line. -/
theorem of_mem_closingTags {tag : Text} (h : tag ∈ closingTags) :
    ['<', '/'] <+: tag ∧ '\n' ∉ tag := by
  rcases List.mem_pair.mp h with rfl | rfl <;> decide

namespace PlacedSection

theorem isEnded_includeLine (s : PlacedSection) : Text.IsEnded s.includeLine := by
  have hr : "' %>\n".toList = "' %>".toList ++ ['\n'] := by decide
  refine .inr ?_
  rw [cites_includeLine s, hr, ← List.append_assoc, List.getLast?_concat]

/-- No include line, whatever its section is called, has a slash behind an angle bracket. -/
theorem not_infix_includeLine (s : PlacedSection) : ¬ ['<', '/'] <:+: s.includeLine := by
  intro h
  rw [cites_includeLine s, List.append_assoc, ← List.reverse_infix, List.reverse_append] at h
  -- Read backwards, the only slash comes behind the name, and no bracket comes behind it.
  have hslash : '/' ∉ (s.partialName ++ "' %>\n".toList).reverse := by
    rw [List.mem_reverse, List.mem_append, not_or]
    exact ⟨SectionPath.notMem_partialName (by decide) (by decide) (.inl rfl), by decide⟩
  have hfront : ['/', '<'] <:+: "    <%= render 'partials/".toList.reverse :=
    Text.infix_of_infix_append hslash h
  exact absurd hfront (by decide)

/-- No include lines, one behind the other, have a closing tag in them. -/
theorem not_infix_includeLines {tag : Text} (htag : tag ∈ closingTags) (ss : List PlacedSection) :
    ¬ tag <:+: ss.flatMap (·.includeLine) := by
  obtain ⟨hopen, hline⟩ := of_mem_closingTags htag
  induction ss with
  | nil =>
    intro h
    have htag' : tag = [] := List.infix_nil.mp h
    rw [htag'] at hopen
    exact absurd hopen (by decide)
  | cons s ss ih =>
    rw [List.flatMap_cons, s.isEnded_includeLine.infix_append_iff hline, not_or]
    exact ⟨fun h => s.not_infix_includeLine (hopen.isInfix.trans h), ih⟩

end PlacedSection

/-! ## The header alone -/

theorem endLine_eq (t : Text) :
    endLine t = if t.getLast? = some '\n' then t else t ++ ['\n'] := by
  have hiff : ['\n'].isSuffixOf t = true ↔ t.getLast? = some '\n' := by
    rw [List.isSuffixOf_iff_suffix, List.singleton_suffix_iff_getLast?_eq_some]
  by_cases h : t.getLast? = some '\n'
  · rw [if_pos h, endLine, if_pos (hiff.mpr h)]
  · rw [if_neg h, endLine, if_neg fun hs => h (hiff.mp hs)]

variable {header tag : Text} {top : List PlacedSection}

/-- A newline at the end adds no closing tag. -/
theorem infix_endLine_iff (hline : '\n' ∉ tag) : tag <:+: endLine header ↔ tag <:+: header := by
  rw [endLine_eq]
  split
  · exact Iff.rfl
  · constructor
    · intro h
      rcases List.infix_concat_iff.mp h with h | h
      · rcases List.suffix_concat_iff.mp h with rfl | ⟨u, rfl, -⟩
        · exact List.nil_infix
        · exact absurd (List.mem_append_right u (List.mem_singleton_self _)) hline
      · exact h
    · exact fun h => h.trans (List.prefix_append ..).isInfix

/-- The closing tags in an index that may lack them are those of its header. -/
theorem infix_openIndex_iff (htag : tag ∈ closingTags) :
    tag <:+: openIndex header top ↔ tag <:+: header := by
  obtain ⟨-, hline⟩ := of_mem_closingTags htag
  obtain ⟨_, -, -, hnewline⟩ := exists_endLine_eq header
  have hended : Text.IsEnded (endLine header) := .inr hnewline
  rw [openIndex, hended.infix_append_iff hline,
    or_iff_left (PlacedSection.not_infix_includeLines htag _), infix_endLine_iff hline]

theorem getLast?_openIndex (header : Text) (top : List PlacedSection) :
    (openIndex header top).getLast? = some '\n' := by
  obtain ⟨_, -, -, hnewline⟩ := exists_endLine_eq header
  have hlines : Text.IsEnded ((top.filter (·.isEmittable)).flatMap (·.includeLine)) := by
    rw [List.flatMap_def]
    exact Text.isEnded_flatten (List.forall_mem_map.mpr fun s _ => s.isEnded_includeLine)
  have hended : Text.IsEnded (endLine header) := .inr hnewline
  refine (hended.append hlines).resolve_left fun h => ?_
  rw [(List.append_eq_nil_iff.mp h).1] at hnewline
  exact nomatch hnewline

/-- The closing tags come behind an index just if its header lacks one of them. -/
theorem indexOf_eq_openIndex_append (header : Text) (top : List PlacedSection) :
    indexOf header top = openIndex header top ++
      if ∀ tag ∈ closingTags, tag <:+: header then [] else closingLines := by
  have hiff : (closingTags.all fun tag => Text.occursIn tag (openIndex header top)) = true ↔
      ∀ tag ∈ closingTags, tag <:+: header := by
    rw [List.all_eq_true]
    refine forall₂_congr fun tag htag => ?_
    rw [Text.occursIn_iff, infix_openIndex_iff htag]
  rw [indexOf_eq]
  by_cases h : ∀ tag ∈ closingTags, tag <:+: header
  · rw [if_pos (hiff.mpr h), if_pos h, List.append_nil]
  · rw [if_neg fun hall => h (hiff.mp hall), if_neg h]

/-- **The end of an index is decided by its header alone.** Whatever the header and the sections,
which may have any names and stand in each other in any way, the index is the header, ended by a
newline, then the include lines of those of the sections that have a partial, in order, and then the
closing tags just if the header lacks one of them. So for one header no sections cause them or keep
them out. The index has both closing tags and ends with a newline. -/
theorem indexOf_eq_append (header : Text) :
    (∀ top : List PlacedSection, indexOf header top =
      (if header.getLast? = some '\n' then header else header ++ ['\n']) ++
        (top.filter (·.isEmittable)).flatMap (·.includeLine) ++
          if ∀ tag ∈ closingTags, tag <:+: header then [] else closingLines) ∧
    (∀ (t : SectionTable) (rs : List Ref), indexOf header (rs.map t.place) =
      (if header.getLast? = some '\n' then header else header ++ ['\n']) ++
        ((rs.filter fun r => (t.place r).isEmittable).flatMap fun r =>
          SectionPath.includeLine (t.fullPath r)) ++
          if ∀ tag ∈ closingTags, tag <:+: header then [] else closingLines) ∧
    ∀ top : List PlacedSection, (∀ tag ∈ closingTags, tag <:+: indexOf header top) ∧
      (indexOf header top = openIndex header top ↔ ∀ tag ∈ closingTags, tag <:+: header) ∧
      (indexOf header top).getLast? = some '\n' := by
  refine ⟨fun top => ?_, fun t rs => ?_, fun top => ⟨?_, ?_, ?_⟩⟩
  · rw [← endLine_eq]
    exact indexOf_eq_openIndex_append header top
  · rw [← endLine_eq, indexOf_eq_openIndex_append, SectionTable.openIndex_map_place]
    rfl
  · intro tag htag
    rw [← Text.occursIn_iff]
    exact List.all_eq_true.mp (occursIn_indexOf header top) tag htag
  · rw [indexOf_eq_openIndex_append]
    split
    next h => exact iff_of_true (List.append_nil _) h
    next h => exact iff_of_false (fun heq => absurd (List.append_right_eq_self.mp heq) (by decide)) h
  · rw [indexOf_eq_openIndex_append]
    split
    · rw [List.append_nil, getLast?_openIndex]
    · rw [List.getLast?_append_of_ne_nil _ (by decide)]
      decide

end PagePartials
