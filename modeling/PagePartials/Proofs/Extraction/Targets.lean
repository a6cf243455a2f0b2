import PagePartials.Proofs.Extraction.Partials
import PagePartials.Proofs.Extraction.Runs
import PagePartials.Proofs.Path

/-!
# Where partials are written

A partial is a file in directories one below the other, and whatever the markers of a page carry,
the file and the directories are named by small letters, digits and underscores. None of these names
leads up or starts anew, so partials stay below their directory; and since a file has a point in its
name and a directory has none, no partial stands where another one needs a directory.

An include line gives the name of a partial and not the directories it lies in. So the line leads to
the file only for a section that no other one with a name stands around.

## Main definitions

* `Partial.LiesIn p dirs`: the partial `p` lies in the directories `dirs`, all named as they should

## Main results

* `Partial.liesIn_ofSection`: the directories that a section's partial lies in
* `Partial.LiesIn.target_eq`: where a partial is written
* `Extraction.fileAt?_write`: the files that writing an extraction leaves as they are
* `Extraction.ofText_staysBelow`: every page is split, into partials that stay below their directory
* `Extraction.cites_relativePath_iff`: when an include line leads to the file of the partial
-/

namespace PagePartials

open SectionName (IsName IsNameChar)

/-! ## Directories and files -/

namespace Partial

/-- Whether the partial is a file of its name in the given directories, one below the other, where
the file is named as partials are and the directories as sections that have a name. -/
structure LiesIn (p : Partial) (dirs : List Text) : Prop where
  pieces_relativePath : Text.pieces '/' p.relativePath = dirs ++ [p.partialName]
  directories : ∀ d ∈ dirs, d ≠ [] ∧ ∀ c ∈ d, IsNameChar c
  partialName : ∃ w, (∀ c ∈ w, IsNameChar c) ∧ p.partialName = '_' :: (w ++ ".html".toList)

namespace LiesIn

variable {p q : Partial} {dirs es : List Text} {d : Text}

theorem notMem_directory (h : p.LiesIn dirs) (hd : d ∈ dirs) {c : Char}
    (hc : SectionName.isKept c = false) (hs : c ≠ SectionName.separator) : c ∉ d :=
  fun hmem => ((h.directories d hd).2 c hmem).ne hc hs rfl

theorem slash_notMem_partialName (h : p.LiesIn dirs) : '/' ∉ p.partialName := by
  obtain ⟨w, hw, hp⟩ := h.partialName
  rw [hp, List.mem_cons, List.mem_append, not_or, not_or]
  exact ⟨by decide, fun hmem => (hw _ hmem).ne (by decide) (by decide) rfl, by decide⟩

theorem isName_partialName (h : p.LiesIn dirs) : Path.isName p.partialName = true := by
  obtain ⟨w, -, hp⟩ := h.partialName
  simp [Path.isName, hp]

theorem isName_directory (h : p.LiesIn dirs) (hd : d ∈ dirs) : Path.isName d = true := by
  have hdot : d ≠ ['.'] := by
    rintro rfl
    exact h.notMem_directory hd (by decide) (by decide) List.mem_cons_self
  simp [Path.isName, (h.directories d hd).1, hdot]

theorem relativePath_eq (h : p.LiesIn dirs) :
    p.relativePath = ['/'].intercalate (dirs ++ [p.partialName]) := by
  rw [← h.pieces_relativePath, Text.intercalate_pieces]

/-- The path of a partial goes through its directories to its name. -/
theorem ofText_relativePath (h : p.LiesIn dirs) :
    Path.ofText p.relativePath = ⟨.relative, dirs ++ [p.partialName]⟩ := by
  have hproper : (⟨.relative, dirs ++ [p.partialName]⟩ : Path).IsProper := by
    refine ⟨rfl, ?_, ?_⟩
    · rw [List.forall_mem_append, List.forall_mem_singleton]
      exact ⟨fun d hd => h.isName_directory hd, h.isName_partialName⟩
    · rw [List.forall_mem_append, List.forall_mem_singleton]
      exact ⟨fun d hd => h.notMem_directory hd (by decide) (by decide), h.slash_notMem_partialName⟩
  have ht : p.relativePath = Path.toText ⟨.relative, dirs ++ [p.partialName]⟩ := by
    rw [h.relativePath_eq]
    simp [Path.toText, Anchor.toText]
  rw [ht, hproper.ofText_toText]

/-- A partial is written below the directory of partials. -/
theorem target_eq (h : p.LiesIn dirs) (o : Options) :
    o.target p = ⟨o.partialsDirectory.anchor,
      o.partialsDirectory.names ++ (dirs ++ [p.partialName])⟩ := by
  rw [Options.target, h.ofText_relativePath]
  rfl

/-- Where a partial is written, nothing leads up but what leads up to the directory of partials. -/
theorem up_notMem_target (h : p.LiesIn dirs) {o : Options}
    (ho : Path.up ∉ o.partialsDirectory.names) : Path.up ∉ (o.target p).names := by
  rw [h.target_eq, List.mem_append, List.mem_append, List.mem_singleton, not_or, not_or]
  refine ⟨ho, fun hmem => ?_, fun heq => ?_⟩
  · exact h.notMem_directory hmem (c := '.') (by decide) (by decide) (by decide)
  · obtain ⟨w, -, hp⟩ := h.partialName
    rw [hp] at heq
    exact absurd (List.cons.inj heq).1 (by decide)

/-- No partial stands where another one needs a directory. -/
theorem relativePath_eq_of_prefix (hp : p.LiesIn dirs) (hq : q.LiesIn es)
    (h : dirs ++ [p.partialName] <+: es ++ [q.partialName]) : p.relativePath = q.relativePath := by
  have hdot : '.' ∈ p.partialName := by
    obtain ⟨w, -, hw⟩ := hp.partialName
    simp [hw]
  -- A name with a point in it is none of the directories of the other partial, so it is the file.
  have heq : dirs ++ [p.partialName] = es ++ [q.partialName] := by
    refine (List.prefix_concat_iff.mp h).resolve_right fun hes => ?_
    have hmem : p.partialName ∈ es := hes.subset (by simp)
    exact hq.notMem_directory hmem (by decide) (by decide) hdot
  rw [hp.relativePath_eq, hq.relativePath_eq, heq]

theorem relativePath_eq_partialName_iff (h : p.LiesIn dirs) :
    p.relativePath = p.partialName ↔ dirs = [] := by
  constructor
  · intro heq
    have hp := h.pieces_relativePath
    rw [heq, Text.pieces_of_notMem h.slash_notMem_partialName] at hp
    simpa using hp
  · rintro rfl
    rw [h.relativePath_eq]
    simp

/-- A partial is written right in the directory of partials only if it lies in no directory. -/
theorem target_eq_partialName_iff (h : p.LiesIn dirs) (o : Options) :
    o.target p = o.partialsDirectory / Path.ofText p.partialName ↔ dirs = [] := by
  have hproper : (⟨.relative, [p.partialName]⟩ : Path).IsProper :=
    ⟨rfl, by simp [h.isName_partialName], by simp [h.slash_notMem_partialName]⟩
  have hname : Path.ofText p.partialName = ⟨.relative, [p.partialName]⟩ := by
    simpa [Path.toText, Anchor.toText] using hproper.ofText_toText
  have htarget : o.partialsDirectory / Path.ofText p.partialName =
      ⟨o.partialsDirectory.anchor, o.partialsDirectory.names ++ [p.partialName]⟩ := by
    rw [hname]
    rfl
  rw [htarget, h.target_eq]
  simp

end LiesIn

/-- The partial of a section lies in a directory for each name around the section. -/
theorem liesIn_ofSection {s : PlacedSection} (hs : ∀ n ∈ s.names, IsName n) :
    (ofSection s).LiesIn (s.above.filter (· != [])) := by
  refine ⟨?_, fun d hd => ?_, ?_⟩
  -- No segment has a slash in it, so the segments of the path are those that it was made from.
  · have ht : (ofSection s).relativePath =
        ['/'].intercalate (s.above.filter (· != []) ++ [s.partialName]) := by
      show s.location.toText = _
      simp [PlacedSection.location_eq hs, Path.toText, Anchor.toText]
    rw [ht, Text.pieces_intercalate_of_notMem (by simp)]
    · rfl
    · rw [List.forall_mem_append, List.forall_mem_singleton]
      constructor
      · intro n hn
        exact PlacedSection.slash_notMem hs n (List.mem_append_left _ (List.mem_of_mem_filter hn))
      · exact PlacedSection.notMem_partialName hs (by decide) (by decide) (by decide)
  · obtain ⟨hmem, hne⟩ := List.mem_filter.mp hd
    have hname := hs d (List.mem_append_left _ hmem)
    exact ⟨by simpa using hne, fun c hc => hname.isNameChar hc⟩
  · refine ⟨_, fun c hc => ?_, PlacedSection.partialName_eq hs⟩
    rcases Text.mem_intercalate hc with rfl | ⟨n, hn, hcn⟩
    · exact .inr rfl
    · exact (hs n hn).isNameChar hcn

end Partial

namespace Extraction

open PagePartials.Task

variable {e : Extraction}

/-! ## Staying below the directory of partials -/

/-- Writing an extraction, if all of its partials lie where they should, leaves the files as they
are that stand neither below the directory of partials nor where the index goes. It does so also if
it stops at a file that cannot be written. -/
theorem fileAt?_write (he : ∀ p ∈ e.partials, ∃ dirs, p.LiesIn dirs) {o : Options}
    {w : Surroundings} {l : Location} (ho : Path.up ∉ o.partialsDirectory.names)
    (hi : Path.up ∉ o.indexPath.names)
    (hl : ¬ w.2.start o.partialsDirectory ++ o.partialsDirectory.names <+: l)
    (hl' : l ≠ w.2.start o.indexPath ++ o.indexPath.names) :
    ((write o e).exec w).2.2.fileAt? l = w.2.fileAt? l := by
  -- What every step keeps is the file at the location, and where relative paths start from.
  suffices h : Preserves (fun fs => fs.fileAt? l = w.2.fileAt? l ∧ fs.here = w.2.here)
      (write o e) from (h w ⟨rfl, rfl⟩).1
  have hstart {fs : FileSystem} (hh : fs.here = w.2.here) (p : Path) :
      fs.start p = w.2.start p := by
    rw [FileSystem.start, FileSystem.start, hh]
  apply preserves_write
  · intro q gs gs' hm hgs
    obtain ⟨hf, hh⟩ := FileSystem.fileAt?_makeDirectory hm l
    exact ⟨hf.trans hgs.1, hh.trans hgs.2⟩
  -- A partial goes below the directory of partials, so it does not go where the file is.
  · intro p hp bytes gs gs' hw hgs
    obtain ⟨dirs, hdirs⟩ := he p hp
    have hne : l ≠ gs.start (o.target p) ++ (o.target p).names := by
      rintro rfl
      refine hl ⟨dirs ++ [p.partialName], ?_⟩
      rw [hstart hgs.2, hdirs.target_eq, List.append_assoc]
      rfl
    obtain ⟨hf, hh⟩ := FileSystem.fileAt?_writeFile (hdirs.up_notMem_target ho) hw hne
    exact ⟨hf.trans hgs.1, hh.trans hgs.2⟩
  · intro bytes gs gs' hw hgs
    rw [← hstart hgs.2] at hl'
    obtain ⟨hf, hh⟩ := FileSystem.fileAt?_writeFile hi hw hl'
    exact ⟨hf.trans hgs.1, hh.trans hgs.2⟩

/-- **Every page is split, and its partials stay below their directory.** Whatever the text, the
names of sections are small letters, digits and underscores, and so is what stands in the name of a
partial between the underscore in front and the `.html` behind. The path of a partial goes through
directories, named likewise and not empty, to the name of the partial; taken from any directory of
partials it stays below it. No partial stands where another one needs a directory. Writing the page
out leaves all files as they are that are neither below the directory of partials nor where the
index goes, whether it succeeds or not. -/
theorem ofText_staysBelow (t : Text) (source : Option Text) :
    ∃ notices e, ofText t source = (notices, .ok e) ∧
      (∀ s ∈ (Document.ofText t).sections, ∀ c ∈ s.name, IsNameChar c) ∧
      (∀ p ∈ e.partials, (∀ c ∈ p.name, IsNameChar c) ∧
        (∃ w, (∀ c ∈ w, IsNameChar c) ∧ p.partialName = '_' :: (w ++ ".html".toList)) ∧
        ∃ dirs : List Text, (∀ d ∈ dirs, d ≠ [] ∧ ∀ c ∈ d, IsNameChar c) ∧
          Text.pieces '/' p.relativePath = dirs ++ [p.partialName] ∧
          Path.ofText p.relativePath = ⟨.relative, dirs ++ [p.partialName]⟩ ∧
          ∀ o : Options, o.target p = ⟨o.partialsDirectory.anchor,
            o.partialsDirectory.names ++ (dirs ++ [p.partialName])⟩) ∧
      (∀ p ∈ e.partials, ∀ q ∈ e.partials,
        (Path.ofText p.relativePath).names <+: (Path.ofText q.relativePath).names →
          p.relativePath = q.relativePath) ∧
      ∀ (o : Options) (w : Surroundings) (l : Location),
        Path.up ∉ o.partialsDirectory.names → Path.up ∉ o.indexPath.names →
        ¬ w.2.start o.partialsDirectory ++ o.partialsDirectory.names <+: l →
        l ≠ w.2.start o.indexPath ++ o.indexPath.names →
        ((write o e).exec w).2.2.fileAt? l = w.2.fileAt? l := by
  obtain ⟨notices, e, he, hp⟩ := partials_ofText t source
  have hname {s : PlacedSection} (hs : s ∈ (Document.ofText t).sections) :
      ∀ n ∈ s.names, IsName n :=
    fun _ => Document.isName_of_mem_names hs
  have hchars {s : PlacedSection} (hs : s ∈ (Document.ofText t).sections) :
      ∀ c ∈ s.name, IsNameChar c :=
    fun _ => (hname hs s.name (by simp [PlacedSection.names])).isNameChar
  have hlies : ∀ p ∈ e.partials, ∃ dirs, p.LiesIn dirs := by
    rw [hp, List.forall_mem_map]
    exact fun s hs => ⟨_, Partial.liesIn_ofSection (hname hs)⟩
  refine ⟨notices, e, he, fun _ => hchars, ?_, ?_, fun o w l => fileAt?_write hlies⟩
  · intro p hmem
    obtain ⟨dirs, hdirs⟩ := hlies p hmem
    refine ⟨?_, hdirs.partialName, dirs, hdirs.directories, hdirs.pieces_relativePath,
      hdirs.ofText_relativePath, hdirs.target_eq⟩
    rw [hp] at hmem
    obtain ⟨s, hs, rfl⟩ := List.mem_map.mp hmem
    exact hchars hs
  · intro p hmem q hmem' hpq
    obtain ⟨dirs, hdirs⟩ := hlies p hmem
    obtain ⟨es, hes⟩ := hlies q hmem'
    rw [hdirs.ofText_relativePath, hes.ofText_relativePath] at hpq
    exact hdirs.relativePath_eq_of_prefix hes hpq

/-! ## Include lines and files -/

/-- **An include line leads to the file of its partial** just if no section with a name stands
around the one that it includes. Every page is split, into a partial for each section. The section's
include line gives the name of the partial; the path of the partial goes through a directory for
each name around the section, outermost first, where an empty name makes none, and then to that
name. So the line gives the path, and the file that it leads to is the one that the partial is
written to, only if all names around the section are empty, and always for an outermost section. -/
theorem cites_relativePath_iff (t : Text) (source : Option Text) :
    ∃ notices e, ofText t source = (notices, .ok e) ∧
      ∀ (i : Nat) (s : PlacedSection), (Document.ofText t).sections[i]? = some s →
        ∃ p, e.partials[i]? = some p ∧ p = Partial.ofSection s ∧
          (∀ n : Text, Cites s.includeLine n ↔ n = p.partialName) ∧
          Text.pieces '/' p.relativePath = s.above.filter (· != []) ++ [p.partialName] ∧
          (Cites s.includeLine p.relativePath ↔ ∀ n ∈ s.above, n = []) ∧
          (∀ o : Options, o.target p = o.partialsDirectory / Path.ofText p.partialName ↔
            ∀ n ∈ s.above, n = []) ∧
          ∀ (o : Options) (w w' : Surroundings) (written : List Path),
            (write o e).Runs w written w' → written[i]? = some (o.target p) := by
  obtain ⟨notices, e, he, hp⟩ := partials_ofText t source
  refine ⟨notices, e, he, fun i s hi => ?_⟩
  have hs := List.mem_of_getElem? hi
  have hpi : e.partials[i]? = some (Partial.ofSection s) := by simp [hp, hi]
  have hlies := Partial.liesIn_ofSection fun _ hn => Document.isName_of_mem_names hs hn
  have hcites (n : Text) : Cites s.includeLine n ↔ n = (Partial.ofSection s).partialName :=
    PlacedSection.cites_includeLine_iff
  have hempty : s.above.filter (· != []) = [] ↔ ∀ n ∈ s.above, n = [] := by
    simp [List.filter_eq_nil_iff]
  refine ⟨_, hpi, rfl, hcites, hlies.pieces_relativePath, ?_, fun o => ?_, ?_⟩
  · rw [hcites, hlies.relativePath_eq_partialName_iff, hempty]
  · rw [hlies.target_eq_partialName_iff, hempty]
  -- The paths written are those of the partials in their order, and then the index.
  · intro o w w' written hw
    have hlt : i < (e.partials.map o.target).length := by
      simpa using (List.getElem?_eq_some_iff.mp hpi).1
    rw [eq_of_runs_write hw, List.getElem?_append_left hlt, List.getElem?_map, hpi]
    rfl

/-- A page with a section `b` inside a section `a`. -/
def nestedPair : Text :=
  "<!-- begin: a -->\n<!-- begin: b -->\n<!-- end: b -->\n<!-- end: a -->\n".toList

theorem locations_nestedPair : (Document.ofText nestedPair).sections.map
    (fun s => (s.partialName, s.location.toText)) =
      [("_a.html".toList, "_a.html".toList), ("_a_b.html".toList, "a/_a_b.html".toList)] := by
  decide +kernel

/-- An include line can give another path than that of its partial. -/
theorem not_cites_relativePath : ¬ ∀ (t : Text) (source : Option Text) (notices : List Notice)
    (e : Extraction) (i : Nat) (s : PlacedSection) (p : Partial) (n : Text),
    ofText t source = (notices, .ok e) → (Document.ofText t).sections[i]? = some s →
    e.partials[i]? = some p → Cites s.includeLine n → p.relativePath = n := by
  intro h
  obtain ⟨notices, e, he, hp⟩ := partials_ofText nestedPair none
  obtain ⟨s, hs, hsn⟩ := exists_of_map_eq (i := 1) locations_nestedPair rfl
  obtain ⟨hname, hpath⟩ := Prod.mk.inj hsn
  have hpi : e.partials[1]? = some (Partial.ofSection s) := by simp [hp, hs]
  have heq : s.location.toText = s.partialName :=
    h nestedPair none notices e 1 s _ _ he hs hpi (PlacedSection.cites_includeLine s)
  rw [hname, hpath] at heq
  exact absurd heq (by decide)

end Extraction

end PagePartials
