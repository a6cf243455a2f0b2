import PagePartials.Proofs.Document.Levels
import PagePartials.Proofs.Extraction.Emission
import PagePartials.Proofs.Extraction.Paths

/-!
# The tree read off its listing

A line of the listing of sections has the path of its section behind the indent and the dash, and a
path has no blank in it, so the path can be read back from the line, and the names from the path.
With the lines of a listing the paths of all sections are known in their order, and with those the
tree. Two pages have the same listing just if they have the same tree of sections.

## Main definitions

* `listedPath line`: the path in a line of a listing

## Main results

* `PlacedSection.listedPath_listingLine`: the path is read back from the line
* `listing_eq_iff`: listings are equal just if the paths in them are
* `Extraction.sectionsTree_encodes`: the listing of a page stands for the tree of its sections
-/

namespace PagePartials

open SectionName (IsName)

/-! ## Lines and listings -/

/-- The path in a line of a listing: it stands behind the indent and the dash, up to the next
blank. -/
def listedPath (line : Text) : Text := ((line.dropWhile (· == ' ')).drop 2).takeWhile (· != ' ')

namespace PlacedSection

variable {s u : PlacedSection}

/-- The path of a section is read back from its line in a listing. -/
theorem listedPath_listingLine (hs : ∀ n ∈ s.names, IsName n) :
    listedPath s.listingLine = s.fullPath := by
  have hblank : ' ' ∉ s.fullPath :=
    notMem_fullPath (by decide) fun n hn => (hs n hn).notMem (by decide) (by decide)
  have hpath : ∀ c ∈ s.fullPath, (c != ' ') = true := fun c hc =>
    bne_iff_ne.mpr fun heq => hblank (heq ▸ hc)
  have hindent : s.listingLine.dropWhile (· == ' ') =
      '-' :: ' ' :: (s.fullPath ++ " -> ".toList ++ s.partialName) := by
    simp [listingLine]
  rw [listedPath, hindent, List.drop_succ_cons, List.drop_succ_cons, List.drop_zero,
    List.append_assoc, List.takeWhile_append_of_pos hpath]
  exact List.append_nil _

/-- Sections have one line in a listing just if they have one path. -/
theorem listingLine_eq_iff (hs : ∀ n ∈ s.names, IsName n) (hu : ∀ n ∈ u.names, IsName n) :
    s.listingLine = u.listingLine ↔ s.names = u.names := by
  constructor
  · intro h
    rw [← fullPath_eq_iff hs hu, ← listedPath_listingLine hs, h, listedPath_listingLine hu]
  · intro h
    obtain ⟨habove, -⟩ := names_eq_iff.mp h
    have hpath := (fullPath_eq_iff hs hu).mpr h
    rw [listingLine, listingLine, partialName, partialName, depth, depth, habove, hpath]

theorem map_listingLine_eq_iff {ss us : List PlacedSection}
    (hs : ∀ s ∈ ss, ∀ n ∈ s.names, IsName n) (hu : ∀ u ∈ us, ∀ n ∈ u.names, IsName n) :
    ss.map (·.listingLine) = us.map (·.listingLine) ↔ ss.map (·.names) = us.map (·.names) := by
  induction ss generalizing us with
  | nil => rw [List.map_nil, List.map_nil, List.nil_eq, List.nil_eq, List.map_eq_nil_iff,
      List.map_eq_nil_iff]
  | cons s ss ih =>
    cases us with
    | nil => exact iff_of_false (List.cons_ne_nil _ _) (List.cons_ne_nil _ _)
    | cons u us =>
      obtain ⟨hs, hss⟩ := List.forall_mem_cons.mp hs
      obtain ⟨hu, hus⟩ := List.forall_mem_cons.mp hu
      simp only [List.map_cons, List.cons.injEq]
      exact and_congr (listingLine_eq_iff hs hu) (ih hss hus)

end PlacedSection

/-- Listings are equal just if the paths in them are, one after the other. -/
theorem listing_eq_iff {ss us : List PlacedSection} (hs : ∀ s ∈ ss, ∀ n ∈ s.names, IsName n)
    (hu : ∀ u ∈ us, ∀ n ∈ u.names, IsName n) :
    "Sections:\n".toList ++ listing ss = "Sections:\n".toList ++ listing us ↔
      ss.map (·.names) = us.map (·.names) := by
  rw [← PlacedSection.map_listingLine_eq_iff hs hu]
  constructor
  -- No line has a newline in it and none is empty, so the lines are had back from the listing.
  · intro h
    have hlines := filter_pieces_listing hs
    rw [h, filter_pieces_listing hu] at hlines
    exact (List.cons.inj hlines).2.symm
  · intro h
    rw [listing, h, ← listing]

/-! ## The listing of a page -/

namespace SectionTable

/-- The names on the path of a linked section are those of its ancestors and its own. -/
theorem names_place (t : SectionTable) (r : Ref) :
    (t.place r).names = (t.ancestors r ++ [r]).map fun a => (t.get a).name := by
  rw [List.map_append]
  rfl

theorem depth_place (t : SectionTable) (r : Ref) : (t.place r).depth = (t.ancestors r).length :=
  List.length_map _

end SectionTable

theorem Linking.Links.place_mem_sections {k : Linking} {d : Document} {r : Ref} (h : k.Links d)
    (hr : r ∈ k.table.walk 0) : k.table.place r ∈ d.sections := by
  rw [← h.place]
  exact List.mem_map_of_mem hr

namespace Extraction

/-- **The listing of a page stands for the tree of its sections.** The sections are linked to each
other while a page is read. Then the path of each one, cut at its slashes, gives the names of its
ancestors, outermost first, and its own, and has as many slashes as there are ancestors. In the
order in which a walk meets the sections, the first has no ancestors, and each of the others has at
most one more than the section before it. For any two texts, the listings are equal just if
the pages have the same tree of sections; and that is the case just if the walks meet the same
places, with the same parent and the same name at each of them. -/
theorem sectionsTree_encodes (t u : Text) (source source' : Option Text) :
    ∃ k k' notices notices' e e',
      (Linking.ofText t = .ok k ∧ k.Links (Document.ofText t) ∧
        ofText t source = (notices, .ok e)) ∧
      (Linking.ofText u = .ok k' ∧ k'.Links (Document.ofText u) ∧
        ofText u source' = (notices', .ok e')) ∧
      (∀ r ∈ k.table.walk 0,
        Text.pieces '/' (k.table.fullPath r) =
          (k.table.ancestors r ++ [r]).map (fun a => (k.table.get a).name) ∧
        (k.table.fullPath r).count '/' = (k.table.ancestors r).length) ∧
      (∀ r ∈ (k.table.walk 0).head?, k.table.ancestors r = []) ∧
      (k.table.walk 0).IsChain
        (fun r q => (k.table.ancestors q).length ≤ (k.table.ancestors r).length + 1) ∧
      (e.sectionsTree = e'.sectionsTree ↔ (Document.ofText t).SameTree (Document.ofText u)) ∧
      ((Document.ofText t).SameTree (Document.ofText u) ↔
        k.table.walk 0 = k'.table.walk 0 ∧ ∀ r ∈ k.table.walk 0,
          (k.table.get r).parent = (k'.table.get r).parent ∧
            (k.table.get r).name = (k'.table.get r).name) := by
  obtain ⟨k, hk, hlinks⟩ := Linking.links_ofText t
  obtain ⟨k', hk', hlinks'⟩ := Linking.links_ofText u
  refine ⟨k, k', _, _, _, _, ⟨hk, hlinks, ofText_eq t source⟩,
    ⟨hk', hlinks', ofText_eq u source'⟩, fun r hr => ?_, fun r hr => ?_, ?_, ?_,
    hlinks.sameTree_iff hlinks'⟩
  · have hpieces : Text.pieces '/' (k.table.place r).fullPath = (k.table.place r).names :=
      PlacedSection.pieces_fullPath fun n hn =>
        Document.isName_of_mem_names (hlinks.place_mem_sections hr) hn
    refine ⟨hpieces.trans (k.table.names_place r), ?_⟩
    have hlen := congrArg List.length hpieces
    rw [Text.length_pieces, PlacedSection.names, List.length_append, List.length_singleton] at hlen
    exact (Nat.succ.inj hlen).trans (k.table.depth_place r)
  · have hhead : k.table.place r ∈ (Document.ofText t).sections.head? := by
      rw [← hlinks.place, List.head?_map, Option.mem_def.mp hr]
      rfl
    have hdepth := Document.depth_eq_zero_of_mem_head? hhead
    rw [SectionTable.depth_place] at hdepth
    exact List.length_eq_zero_iff.mp hdepth
  · have hchain := (Document.ofText t).body.isChain_depth_place []
    rw [← Document.sections, ← hlinks.place, List.isChain_map] at hchain
    simp only [SectionTable.depth_place] at hchain
    exact hchain
  · rw [Document.sameTree_iff]
    exact listing_eq_iff (fun s hs n hn => Document.isName_of_mem_names hs hn)
      fun s hs n hn => Document.isName_of_mem_names hs hn

end Extraction

end PagePartials
