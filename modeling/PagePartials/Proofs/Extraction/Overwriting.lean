import PagePartials.Proofs.Document.Locations
import PagePartials.Proofs.Encoding.Utf8
import PagePartials.Proofs.Extraction.Targets

/-!
# Partials that overwrite others

A page that is split and written out has each partial in the file it was written to, as long as no
two sections share a file. Where two do, the later partial takes the place of the earlier one; the
two are different, so the earlier one is lost although the run reports no failure.

## Main results

* `Extraction.readFile_iff_not_sharesFile`: when every partial is in its file at the end
* `Extraction.exists_lost`: a page of which a partial is lost
-/

namespace PagePartials

open SectionName (IsName)
open PlacedSection (SharesFile)

namespace Extraction

variable {t : Text} {source : Option Text} {notices : List Notice} {e : Extraction}
  {w w' : Surroundings} {written : List Path} {s u : PlacedSection}

/-! ## Where the output goes -/

theorem target_ofSection (hs : ∀ n ∈ s.names, IsName n) :
    Options.standard.target (Partial.ofSection s) =
      ⟨.relative, "partials".toList :: (s.above.filter (· != []) ++ [s.partialName])⟩ := by
  have hd : Options.standard.partialsDirectory = ⟨.relative, ["partials".toList]⟩ := by decide
  rw [(Partial.liesIn_ofSection hs).target_eq, hd]
  rfl

theorem isPlain_target (hs : ∀ n ∈ s.names, IsName n) :
    (Options.standard.target (Partial.ofSection s)).IsPlain := by
  refine ⟨by rw [target_ofSection hs], ?_⟩
  exact (Partial.liesIn_ofSection hs).up_notMem_target (by decide)

theorem isPlain_indexPath : Options.standard.indexPath.IsPlain := ⟨by decide, by decide⟩

theorem target_ne_indexPath (hs : ∀ n ∈ s.names, IsName n) :
    Options.standard.target (Partial.ofSection s) ≠ Options.standard.indexPath := by
  have hi : Options.standard.indexPath = ⟨.relative, ["new_index.html".toList]⟩ := by decide
  rw [target_ofSection hs, hi]
  intro h
  have hn : "partials".toList = "new_index.html".toList := (List.cons.inj (Path.mk.inj h).2).1
  exact absurd hn (by decide)

theorem codec_standard : Options.standard.encoding.codec = .ok Charset.utf8.codec :=
  Options.standard.encoding.codec_eq .utf8 (by decide +kernel)

theorem bytesOf_standard (t : Text) :
    Task.bytesOf t Options.standard.encoding = .ok (Utf8.encode t) :=
  Task.bytesOf_eq_ok_iff.mpr ⟨Charset.utf8.codec, codec_standard, rfl⟩

/-- The partials of two sections of a page are written to one file just if the sections share
it. -/
theorem target_eq_iff (hs : s ∈ (Document.ofText t).sections)
    (hu : u ∈ (Document.ofText t).sections) :
    Options.standard.target (Partial.ofSection s) = Options.standard.target (Partial.ofSection u) ↔
      SharesFile s u := by
  have hns : ∀ n ∈ s.names, IsName n := fun _ => Document.isName_of_mem_names hs
  have hnu : ∀ n ∈ u.names, IsName n := fun _ => Document.isName_of_mem_names hu
  rw [target_ofSection hns, target_ofSection hnu, ← Document.location_eq_iff hs hu,
    PlacedSection.location_eq hns, PlacedSection.location_eq hnu]
  simp

/-! ## What is in the files -/

theorem partials_eq (he : ofText t source = (notices, .ok e)) :
    e.partials = (Document.ofText t).sections.map Partial.ofSection := by
  obtain ⟨notices', e', he', hp⟩ := partials_ofText t source
  rw [he] at he'
  rw [Except.ok.inj (Prod.mk.inj he').2, hp]

/-- A section's partial has its place among the others, before those of the later sections. -/
theorem exists_split (he : ofText t source = (notices, .ok e)) {i : Nat}
    (hi : (Document.ofText t).sections[i]? = some s) :
    e.partials = ((Document.ofText t).sections.take i).map Partial.ofSection ++
      Partial.ofSection s :: ((Document.ofText t).sections.drop (i + 1)).map Partial.ofSection := by
  obtain ⟨hlt, hget⟩ := List.getElem?_eq_some_iff.mp hi
  rw [partials_eq he, ← List.map_cons, ← List.map_append, ← hget, ← List.drop_eq_getElem_cons hlt,
    List.take_append_drop]

/-- A partial is in its file at the end if no later section shares the file. -/
theorem readFile_of_not_sharesFile (he : ofText t source = (notices, .ok e))
    (hw : (write .standard e).Runs w written w') {i : Nat}
    (hi : (Document.ofText t).sections[i]? = some s)
    (hlater : ∀ (j : Nat) (u : PlacedSection), i < j →
      (Document.ofText t).sections[j]? = some u → ¬ SharesFile s u) :
    w'.2.readFile (Options.standard.target (Partial.ofSection s)) = .ok (Utf8.encode s.render) := by
  have hs := List.mem_of_getElem? hi
  have hplain : ∀ p ∈ e.partials, (Options.standard.target p).IsPlain := by
    rw [partials_eq he, List.forall_mem_map]
    exact fun u hu => isPlain_target fun _ => Document.isName_of_mem_names hu
  have hlast : ∀ q ∈ ((Document.ofText t).sections.drop (i + 1)).map Partial.ofSection,
      Options.standard.target (Partial.ofSection s) ≠ Options.standard.target q := by
    rw [List.forall_mem_map]
    intro u hu heq
    obtain ⟨k, hk⟩ := List.mem_iff_getElem?.mp hu
    rw [List.getElem?_drop] at hk
    apply hlater (i + 1 + k) u (by omega) hk
    exact (target_eq_iff hs (List.mem_of_getElem? hk)).mp heq
  -- So what was written to that file is still there, and it is the partial in UTF-8.
  obtain ⟨bytes, hb, hr⟩ := readFile_write hplain isPlain_indexPath (exists_split he hi) hlast
    (target_ne_indexPath fun _ => Document.isName_of_mem_names hs) hw
  rw [bytesOf_standard] at hb
  rw [hr, ← Except.ok.inj hb]
  rfl

/-- **No partial is lost just if no two sections share a file.** When a page was split and written
out, with the standard options and whatever files there were before, each partial is in the file it
was written to, unless two sections of the page have the same path, or one stands in a section
without a name and the other one beside that section, called like the first with an underscore in
front. -/
theorem readFile_iff_not_sharesFile (he : ofText t source = (notices, .ok e))
    (hw : (write .standard e).Runs w written w') :
    (∀ p ∈ e.partials,
      w'.2.readFile (Options.standard.target p) = .ok (Utf8.encode p.content)) ↔
    ∀ (i j : Nat) (s u : PlacedSection), i < j → (Document.ofText t).sections[i]? = some s →
      (Document.ofText t).sections[j]? = some u → ¬ SharesFile s u := by
  rw [partials_eq he, List.forall_mem_map]
  constructor
  · intro h i j s u hij hi hj hsu
    have hs := List.mem_of_getElem? hi
    have hu := List.mem_of_getElem? hj
    -- One file cannot hold both partials, since their bytes are different.
    have hfile := (h s hs).symm
    rw [(target_eq_iff hs hu).mpr hsu, h u hu] at hfile
    have hr : s.render = u.render := Utf8.encode_injective (Except.ok.inj hfile)
    exact Document.render_ne_of_sharesFile hij hi hj hsu hr
  · intro h s hs
    obtain ⟨i, hi⟩ := List.mem_iff_getElem?.mp hs
    exact readFile_of_not_sharesFile he hw hi fun j u hij hj => h i j s u hij hi hj

/-- A page with two sections `x`, one after the other, and a section `x 2` after them. -/
def overlap : Text :=
  ("<!-- begin: x -->\n1\n<!-- end: x -->\n<!-- begin: x -->\n2\n<!-- end: x -->\n" ++
    "<!-- begin: x 2 -->\n3\n<!-- end: x 2 -->\n").toList

theorem names_overlap : (Document.ofText overlap).sections.map PlacedSection.names =
    [["x".toList], ["x_2".toList], ["x_2".toList]] := by
  decide +kernel

theorem exists_overlapping : ∃ s u, (Document.ofText overlap).sections[1]? = some s ∧
    (Document.ofText overlap).sections[2]? = some u ∧ s.names = u.names := by
  obtain ⟨s, hs, hsn⟩ := exists_of_map_eq (i := 1) names_overlap rfl
  obtain ⟨u, hu, hun⟩ := exists_of_map_eq (i := 2) names_overlap rfl
  exact ⟨s, u, hs, hu, hsn.trans hun.symm⟩

/-- Where there is nothing but the directory to start from, that page is written out without a
failure, and at the end not every partial is in its file. -/
theorem exists_lost : ∃ notices e written w',
    ofText overlap none = (notices, .ok e) ∧
      (write .standard e).Runs ([], .emptyAt []) written w' ∧
      ¬ ∀ p ∈ e.partials,
        w'.2.readFile (Options.standard.target p) = .ok (Utf8.encode p.content) := by
  obtain ⟨notices, e, he, -⟩ := partials_ofText overlap none
  -- Evaluate the whole run: the page is split and every file is written.
  have hrun : ((ofText overlap none).2.toOption.any fun e =>
      ((write .standard e).exec ([], .emptyAt [])).1.toBool) = true := by
    decide +kernel
  have hok : ((write .standard e).exec ([], .emptyAt [])).1.toBool = true := by
    rw [he] at hrun
    exact hrun
  rcases hw : (write .standard e).exec ([], .emptyAt []) with ⟨r, w'⟩
  rw [hw] at hok
  cases r with
  | error f => exact absurd hok (by simp [Except.toBool])
  | ok written =>
    refine ⟨notices, e, written, w', he, hw, ?_⟩
    rw [readFile_iff_not_sharesFile he hw]
    intro h
    -- The second and the third section have the same path.
    obtain ⟨s, u, hs, hu, hsu⟩ := exists_overlapping
    exact h 1 2 s u (by decide) hs hu (.inl hsu)

end Extraction

end PagePartials
