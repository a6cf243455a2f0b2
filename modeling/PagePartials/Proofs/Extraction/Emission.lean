import PagePartials.Proofs.Document.Linking
import PagePartials.Proofs.Document.Preorder
import PagePartials.Proofs.Extraction.Index
import PagePartials.Proofs.Extraction.Report

/-!
# The parts of an extraction agree

A page is split into one partial for each of its sections, in pre-order, since no section of a page
is blank; it is the order of a walk over the sections linked to each other. The index has an include
line for each of the outermost sections, the listing a line for each section, and the numbers in the
summary are how many sections there are.

## Main results

* `Reading.mem_notices`: what a page gives notice of while it is read
* `filter_pieces_listing`: the lines of a listing
* `Document.lines_indexOf`: the lines of a page's index
* `Extraction.ofText_agrees`: partials, index, listing and summary speak of the same sections
-/

namespace PagePartials

open SectionName (IsName)

/-! ## Notices -/

theorem Event.mem_notices {opened : List Text} {es : List Event} {n : Notice}
    (hn : n ∈ Event.notices opened es) : ∃ name path, n = .strayEnd name path := by
  induction es generalizing opened with
  | nil => exact absurd hn List.not_mem_nil
  | cons e es ih =>
    cases e with
    | text l => exact ih hn
    | stray name l =>
      rcases List.mem_cons.mp hn with rfl | hn
      · exact ⟨name, _, rfl⟩
      · exact ih hn
    | opening name l => exact ih hn
    | closing l => exact ih hn

/-- What is noticed while a page is read: end markers that end nothing, sections without an end
marker, and lines outside of all sections. -/
theorem Reading.mem_notices {t : Text} {n : Notice} (hn : n ∈ (Reading.ofText t).notices) :
    (∃ name path, n = .strayEnd name path) ∨ (∃ path, n = .unterminated path) ∨
      ∃ k, n = .discarded k := by
  rcases List.mem_append.mp hn with hn | hn
  · rcases List.mem_append.mp hn with hn | hn
    · exact .inl (Event.mem_notices hn)
    · obtain ⟨path, -, rfl⟩ := List.mem_map.mp hn
      exact .inr (.inl ⟨path, rfl⟩)
  · split at hn
    · exact absurd hn List.not_mem_nil
    · exact .inr (.inr ⟨_, List.mem_singleton.mp hn⟩)

/-! ## The listing -/

namespace PlacedSection

variable {s : PlacedSection}

/-- A section takes one line of the listing. -/
theorem newline_notMem_listingLine (hs : ∀ n ∈ s.names, IsName n) : '\n' ∉ s.listingLine := by
  have hindent : '\n' ∉ List.replicate (2 * s.depth) ' ' := fun h =>
    absurd (List.eq_of_mem_replicate h) (by decide)
  have hpath : '\n' ∉ s.fullPath :=
    notMem_fullPath (by decide) fun n hn => (hs n hn).notMem (by decide) (by decide)
  have hname : '\n' ∉ s.partialName :=
    notMem_partialName hs (by decide) (by decide) (by decide)
  exact List.not_mem_append (List.not_mem_append (List.not_mem_append
    (List.not_mem_append hindent (by decide)) hpath) (by decide)) hname

theorem listingLine_ne_nil (s : PlacedSection) : s.listingLine ≠ [] := by
  simp [listingLine, partialName, SectionPath.partialName]

end PlacedSection

/-- The lines of a listing under its heading: one for each section, in their order. -/
theorem filter_pieces_listing {ss : List PlacedSection} (h : ∀ s ∈ ss, ∀ n ∈ s.names, IsName n) :
    (Text.pieces '\n' ("Sections:\n".toList ++ listing ss)).filter (· ≠ []) =
      "Sections:".toList :: ss.map (·.listingLine) := by
  have hheading : "Sections:\n".toList ++ listing ss =
      "Sections:".toList ++ '\n' :: listing ss := by
    rw [show "Sections:\n".toList = "Sections:".toList ++ ['\n'] by decide, List.append_assoc]
    rfl
  have hlines : (Text.pieces '\n' (listing ss)).filter (· ≠ []) = ss.map (·.listingLine) := by
    rcases eq_or_ne ss [] with rfl | hne
    · rfl
    · rw [listing, Text.pieces_intercalate_of_notMem (by simpa using hne)]
      · rw [List.filter_eq_self, List.forall_mem_map]
        exact fun s _ => by simpa using s.listingLine_ne_nil
      · rw [List.forall_mem_map]
        exact fun s hs => PlacedSection.newline_notMem_listingLine (h s hs)
  rw [hheading, Text.pieces_append_cons, Text.pieces_of_notMem (by decide), List.singleton_append,
    List.filter_cons_of_pos (by decide), hlines]

/-! ## The index -/

namespace Document

variable {t : Text}

theorem isEmittable_of_mem_sections {s : PlacedSection} (hs : s ∈ (ofText t).sections) :
    s.isEmittable = true :=
  PlacedSection.isEmittable_of_isMarked (isMarked_of_mem_sections hs)

/-- The lines of a page's index: those of the header, ended by a newline, an include line for each
section that stands inside no other, and perhaps the closing tags. -/
theorem lines_indexOf (t : Text) :
    ∃ last : List Text, (last = [] ∨ last = closers) ∧
      Text.lines (indexOf (ofText t).header (ofText t).top) =
        Text.lines (endLine (ofText t).header) ++
          (((ofText t).children none).map (·.includeLine) ++ last) := by
  have hall : (ofText t).top.filter (·.isEmittable) = (ofText t).top := by
    rw [List.filter_eq_self, ← children_none]
    exact fun s hs => isEmittable_of_mem_sections (mem_sections_of_mem_children hs)
  obtain ⟨last, hlast, hlines⟩ :=
    exists_lines_indexOf (fun s hs => isName_of_mem_top hs) (ofText t).header
  exact ⟨last, hlast, by rw [hlines, hall, children_none]⟩

end Document

/-! ## The whole -/

namespace Extraction

/-- **Partials, index, listing and summary speak of the same sections.** Every page is split into
one partial for each section, in order, with the section's name, path, partial name and the text
made from it. The order is pre-order: each section is followed by those inside it, in the order of
those right inside it, so what stands inside a section comes right behind it. It is also the order
in which a walk meets the sections when they are linked to each other while the page is read, and
from the sections so linked the same parts are made. No section is left out as blank. The index has,
behind the lines of the header, one include line for each section that stands inside no other. The
numbers of sections and of partials in the summary are both the number of sections, and the listing
has, under its heading, one line for each section. -/
theorem ofText_agrees (t : Text) (source : Option Text) :
    ∃ notices e, ofText t source = (notices, .ok e) ∧
      e.partials = ((Document.ofText t).sections.map fun s =>
        ⟨s.name, s.fullPath, s.partialName, s.location.toText, s.render⟩) ∧
      (Document.ofText t).regions.map (·.placed) = (Document.ofText t).sections ∧
      (Document.ofText t).regions =
        ((Document.ofText t).childRegions none).flatMap (·.subtree) ∧
      (∀ (i : Nat) (g : Body.Region), (Document.ofText t).regions[i]? = some g →
        g.subtree = g :: ((Document.ofText t).childRegions (some i)).flatMap (·.subtree) ∧
        ∀ j, (Document.ofText t).Encloses i j ↔ i < j ∧ j ≤ i + g.inner.count) ∧
      (∃ k, Linking.ofText t = .ok k ∧ k.Links (Document.ofText t) ∧
        (ofOutline (k.table.outline 0 (Document.ofText t).header) source).2 = .ok e) ∧
      (∀ s ∈ (Document.ofText t).sections, s.isEmittable = true) ∧
      (∀ n ∈ notices, ∀ path, n ≠ .skippedEmpty path) ∧
      (∃ last : List Text, (last = [] ∨ last = closers) ∧
        Text.lines e.indexContent = Text.lines (endLine (Document.ofText t).header) ++
          (((Document.ofText t).children none).map (·.includeLine) ++ last)) ∧
      Text.pieces '\n' e.summary =
        (if source.getD [] = [] then []
          else Text.pieces '\n' ("Source: ".toList ++ source.getD [])) ++
        ["Sections: ".toList ++ Nat.toDigits 10 (Document.ofText t).sections.length,
          "Partials: ".toList ++ Nat.toDigits 10 (Document.ofText t).sections.length] ++
        (if (Document.ofText t).unterminated.length = 0 then []
          else ["Unterminated: ".toList ++
            Nat.toDigits 10 (Document.ofText t).unterminated.length]) ∧
      (Text.pieces '\n' e.sectionsTree).filter (· ≠ []) =
        "Sections:".toList :: (Document.ofText t).sections.map (·.listingLine) := by
  refine ⟨_, _, ofText_eq t source, rfl, Document.map_placed_regions _, Document.regions_eq _,
    fun i g hg => ⟨Document.subtree_eq hg, fun j => Document.encloses_iff hg⟩, ?_,
    fun s hs => Document.isEmittable_of_mem_sections hs, ?_, Document.lines_indexOf t,
    Outline.pieces_summary_eq _ source _,
    filter_pieces_listing fun s hs n hn => Document.isName_of_mem_names hs hn⟩
  · obtain ⟨k, hk, hlinks⟩ := Linking.links_ofText t
    refine ⟨k, hk, hlinks, ?_⟩
    rw [hlinks.outline]
    exact congrArg Prod.snd (ofText_eq t source)
  · rintro n hn path rfl
    rcases Reading.mem_notices hn with ⟨_, _, h⟩ | ⟨_, h⟩ | ⟨_, h⟩ <;> exact Notice.noConfusion h

end Extraction

end PagePartials
