import PagePartials.Proofs.Encoding.Repertoire
import PagePartials.Proofs.Extraction.Endings
import PagePartials.Proofs.Extraction.Fragments
import PagePartials.Proofs.Extraction.Index
import PagePartials.Proofs.Extraction.Targets

/-!
# Texts that can be written

What is written for a page has only characters of the page and of ASCII. The own lines and markers
are lines of the page, the names are small letters, digits and underscores, whatever characters the
markers carry, and all else is put in as it stands. Every encoding that is built in has the
characters of ASCII, and the one that a page was read in has those of the page; so what the page is
split into has bytes in it, and no run fails for want of them.

## Main definitions

* `Text.IsAscii t`: all characters of `t` are of ASCII
* `Text.IsDrawnFrom u t`: all characters of `u` are of `t` or of ASCII
* `Failure.NotUnencodable f`: `f` is not that a character has no bytes

## Main results

* `Document.isDrawnFrom_render`, `Document.isDrawnFrom_indexOf`: the characters of what is written
* `Task.yields_readText`, `Extraction.yields_write_of_covers`: texts that have bytes in the encoding
  asked for
* `Extraction.ofFile_isEncodable`: no run fails for want of bytes
-/

namespace PagePartials

open SectionName (IsName IsNameChar)

/-! ## Characters -/

namespace Text

variable {t u v : Text} {ls : List Text}

/-- All characters are of ASCII. -/
def IsAscii (t : Text) : Prop := ∀ c ∈ t, c.toNat < 0x80

instance (t : Text) : Decidable t.IsAscii :=
  decidable_of_iff (t.all (fun c => decide (c.toNat < 0x80)) = true) (by simp [IsAscii])

/-- All characters are of the second text or of ASCII. -/
def IsDrawnFrom (u t : Text) : Prop := ∀ c ∈ u, c.toNat < 0x80 ∨ c ∈ t

theorem IsAscii.append (hu : u.IsAscii) (hv : v.IsAscii) : IsAscii (u ++ v) :=
  List.forall_mem_append.mpr ⟨hu, hv⟩

theorem isAscii_intercalate {sep : Char} (hsep : sep.toNat < 0x80) (h : ∀ l ∈ ls, l.IsAscii) :
    IsAscii ([sep].intercalate ls) := by
  intro c hc
  rcases mem_intercalate hc with rfl | ⟨l, hl, hcl⟩
  · exact hsep
  · exact h l hl c hcl

theorem IsAscii.isDrawnFrom (h : u.IsAscii) (t : Text) : u.IsDrawnFrom t :=
  fun c hc => .inl (h c hc)

theorem IsDrawnFrom.append (hu : u.IsDrawnFrom t) (hv : v.IsDrawnFrom t) :
    IsDrawnFrom (u ++ v) t :=
  List.forall_mem_append.mpr ⟨hu, hv⟩

theorem isDrawnFrom_flatten (h : ∀ l ∈ ls, l.IsDrawnFrom t) : IsDrawnFrom ls.flatten t := by
  intro c hc
  obtain ⟨l, hl, hcl⟩ := List.mem_flatten.mp hc
  exact h l hl c hcl

theorem isDrawnFrom_of_mem_lines (h : u ∈ lines t) : u.IsDrawnFrom t := by
  intro c hc
  rw [← flatten_lines t]
  exact .inr (List.mem_flatten.mpr ⟨u, h, hc⟩)

end Text

theorem SectionName.IsNameChar.toNat_lt {c : Char} (h : IsNameChar c) : c.toNat < 0x80 := by
  have hle {a b : Char} (hab : a ≤ b) : a.toNat ≤ b.toNat := hab
  rcases h with h | rfl
  · simp only [isKept, Bool.or_eq_true, Bool.and_eq_true, decide_eq_true_eq] at h
    rcases h with ⟨-, h⟩ | ⟨-, h⟩
    · exact Nat.lt_of_le_of_lt (hle h) (by decide)
    · exact Nat.lt_of_le_of_lt (hle h) (by decide)
  · decide

theorem SectionName.IsName.isAscii {n : Text} (h : IsName n) : n.IsAscii :=
  fun _ hc => (h.isNameChar hc).toNat_lt

/-! ## What a page is split into -/

namespace Partial.LiesIn

variable {p : Partial} {dirs : List Text}

theorem isAscii_partialName (h : p.LiesIn dirs) : p.partialName.IsAscii := by
  obtain ⟨w, hw, hp⟩ := h.partialName
  rw [hp]
  have hword : Text.IsAscii w := fun c hc => (hw c hc).toNat_lt
  exact List.forall_mem_cons.mpr ⟨by decide, hword.append (by decide)⟩

theorem isAscii_relativePath (h : p.LiesIn dirs) : p.relativePath.IsAscii := by
  rw [h.relativePath_eq]
  refine Text.isAscii_intercalate (by decide) fun l hl => ?_
  rcases List.mem_append.mp hl with hl | hl
  · exact fun c hc => ((h.directories l hl).2 c hc).toNat_lt
  · rw [List.mem_singleton.mp hl]
    exact h.isAscii_partialName

end Partial.LiesIn

namespace PlacedSection

variable {s : PlacedSection}

theorem isAscii_fullPath (hs : ∀ n ∈ s.names, IsName n) : s.fullPath.IsAscii :=
  Text.isAscii_intercalate (by decide) fun n hn => (hs n hn).isAscii

theorem isAscii_includeLine (hs : ∀ n ∈ s.names, IsName n) : s.includeLine.IsAscii := by
  have hname : s.partialName.IsAscii := (Partial.liesIn_ofSection hs).isAscii_partialName
  rw [cites_includeLine s]
  exact Text.IsAscii.append (.append (by decide) hname) (by decide)

end PlacedSection

namespace Document

variable {t : Text} {s : PlacedSection}

/-- **The characters of a partial** are of the page and of ASCII. -/
theorem isDrawnFrom_render (hs : s ∈ (ofText t).sections) : s.render.IsDrawnFrom t := by
  obtain ⟨i, hi⟩ := List.mem_iff_getElem?.mp hs
  obtain ⟨start, -, -, hstart, -, -⟩ := (isMarked_of_mem_sections hs).begins
  -- The markers and the own lines are lines of the page.
  have hlines : ∀ l ∈ start :: s.content ++ s.endComment.toList, l.IsDrawnFrom t := by
    intro l hl
    refine Text.isDrawnFrom_of_mem_lines (mem_lines_of_getElem?_sections hi ?_)
    rwa [hstart]
  obtain ⟨hown, hstop⟩ := List.forall_mem_append.mp hlines
  obtain ⟨hfirst, hcontent⟩ := List.forall_mem_cons.mp hown
  have hincludes : ∀ l ∈ (ofText t).includeLines i, l.IsDrawnFrom t := by
    intro l hl
    obtain ⟨c, hc, rfl⟩ := List.mem_map.mp hl
    exact (PlacedSection.isAscii_includeLine (isName_of_mem_children hc)).isDrawnFrom t
  rw [render_eq_flatten hi hstart]
  refine Text.isDrawnFrom_flatten (List.forall_mem_append.mpr ⟨?_, hstop⟩)
  refine List.forall_mem_cons.mpr ⟨hfirst, List.forall_mem_append.mpr ⟨?_, hincludes⟩⟩
  exact fun l hl => hcontent l (s.shownLines_sublist.subset hl)

/-- **The characters of an index** are of the page and of ASCII. -/
theorem isDrawnFrom_indexOf (t : Text) :
    (indexOf (ofText t).header (ofText t).top).IsDrawnFrom t := by
  obtain ⟨head, hhead, hlines, -⟩ := wellFormed_ofText t
  have hheader : (ofText t).header.IsDrawnFrom t := by
    rw [hhead]
    refine Text.isDrawnFrom_flatten fun l hl => Text.isDrawnFrom_of_mem_lines ?_
    rw [hlines]
    exact List.mem_append_left _ hl
  have hended : (endLine (ofText t).header).IsDrawnFrom t := by
    unfold endLine
    split
    · exact hheader
    · exact hheader.append (Text.IsAscii.isDrawnFrom (by decide) t)
  obtain ⟨last, hlast, hindex⟩ := exists_indexOf_eq_endLine (ofText t).header (ofText t).top
  rw [hindex]
  refine hended.append (Text.isDrawnFrom_flatten fun l hl => Text.IsAscii.isDrawnFrom ?_ t)
  rcases List.mem_append.mp hl with hl | hl
  · obtain ⟨s, hs, rfl⟩ := List.mem_map.mp hl
    exact PlacedSection.isAscii_includeLine (isName_of_mem_top (List.mem_of_mem_filter hs))
  · rcases hlast with rfl | rfl
    · exact absurd hl List.not_mem_nil
    · rcases List.mem_pair.mp hl with rfl | rfl <;> decide

end Document

/-! ## How tasks end -/

/-- The failure is another one than that a character has no bytes. -/
def Failure.NotUnencodable (f : Failure) : Prop := ∀ e, f ≠ .unencodable e

theorem Failure.mayStopWriting_notUnencodable : MayStopWriting NotUnencodable :=
  ⟨nofun, nofun, fun _ _ => nofun, fun _ _ => nofun⟩

namespace Task

/-- A text that was read has bytes in the encoding that it was read in. -/
theorem yields_readText (p : Path) (encoding : Encoding) :
    Yields encoding.Covers Failure.NotUnencodable (readText p encoding) := by
  unfold readText
  refine (yields_refuseNullName nofun encoding).bind fun _ _ =>
    (yields_refuseNull nofun p).bind fun _ _ => (yields_lift _).bind fun r _ => ?_
  rcases r with fault | bytes
  · exact yields_throw nofun
  dsimp only
  split
  · exact yields_throw nofun
  next codec hcodec =>
    split
    · exact yields_throw nofun
    · exact yields_throw nofun
    next u hu =>
      have hcovers : encoding.Covers (Text.unifyNewlines u) := by
        intro charset hcharset c hc
        obtain rfl : codec = charset.codec := Except.ok.inj (hcodec.symm.trans hcharset)
        rcases Text.mem_unifyNewlines hc with rfl | hc
        · exact charset.has_of_lt (by decide)
        · exact Charset.has_of_decode hu hc
      exact yields_pure hcovers

end Task

/-! ## Runs -/

theorem Encoding.Covers.of_isDrawnFrom {encoding : Encoding} {t u : Text} (h : encoding.Covers t)
    (hu : u.IsDrawnFrom t) : encoding.Covers u := fun charset hcharset c hc =>
  (hu c hc).elim charset.has_of_lt (h charset hcharset c)

/-- If a text has bytes in the encoding asked for, there can be no such encoding, but no character
is in the way. -/
theorem Encoding.Covers.notUnencodable {t : Text} {encoding : Encoding} (h : encoding.Covers t)
    (hencoding : encoding.IsBuiltIn) :
    ∀ f, Task.bytesOf t encoding = .error f → f.NotUnencodable := by
  intro f hf
  obtain ⟨_, -, rfl⟩ | ⟨codec, e, hcodec, he, rfl⟩ := Task.bytesOf_eq_error_iff.mp hf
  · exact nofun
  · exact absurd he (h.encode_ne_error hencoding hcodec)

namespace Extraction

open PagePartials.Task

variable {o : Options} {e : Extraction} {ps : List Partial} {t : Text}

/-- What is written of the extraction has only characters of the text and of ASCII. -/
structure IsDrawnFrom (e : Extraction) (t : Text) : Prop where
  index : e.indexContent.IsDrawnFrom t
  partials : ∀ p ∈ e.partials, p.content.IsDrawnFrom t

theorem yields_write_of_covers (ho : o.encoding.IsBuiltIn) (h : o.encoding.Covers t)
    (he : e.IsDrawnFrom t) : Yields (fun _ => True) Failure.NotUnencodable (write o e) :=
  yields_write Failure.mayStopWriting_notUnencodable
    (fun p hp => (h.of_isDrawnFrom (he.partials p hp)).notUnencodable ho)
    ((h.of_isDrawnFrom he.index).notUnencodable ho)

/-- Every page is split, into texts of its characters. -/
theorem isDrawnFrom_ofText (t : Text) (source : Option Text) :
    ∃ notices e, ofText t source = (notices, .ok e) ∧ e.IsDrawnFrom t ∧
      ∀ p ∈ e.partials, p.name.IsAscii ∧ p.fullPath.IsAscii ∧ p.partialName.IsAscii ∧
        p.relativePath.IsAscii := by
  obtain ⟨notices, e, he, hindex, hpartials⟩ := indexContent_ofText t source
  refine ⟨notices, e, he, ⟨hindex ▸ Document.isDrawnFrom_indexOf t, ?_⟩, ?_⟩
  · rw [hpartials, List.forall_mem_map]
    exact fun s hs => Document.isDrawnFrom_render hs
  · rw [hpartials, List.forall_mem_map]
    intro s hs
    have hnames : ∀ n ∈ s.names, IsName n := fun _ hn => Document.isName_of_mem_names hs hn
    have hlies := Partial.liesIn_ofSection hnames
    exact ⟨(hnames s.name (List.mem_append_right _ List.mem_cons_self)).isAscii,
      PlacedSection.isAscii_fullPath hnames, hlies.isAscii_partialName, hlies.isAscii_relativePath⟩

theorem yields_ofPage (t : Text) (source : Option Text) :
    Yields (·.IsDrawnFrom t) Failure.NotUnencodable (ofPage t source) := by
  obtain ⟨notices, e, he, hdrawn, -⟩ := isDrawnFrom_ofText t source
  rw [ofPage, he]
  exact (yields_report notices).bind fun _ _ => yields_pure hdrawn

theorem yields_ofFile (ho : o.encoding.IsBuiltIn) (input : Path) :
    Yields (fun _ => True) Failure.NotUnencodable (ofFile o input) :=
  (yields_readText input o.encoding).bind fun t ht =>
    (yields_ofPage t (some input.name)).bind fun _ he =>
      (yields_write_of_covers ho ht he).bind fun _ _ => yields_pure trivial

/-- **No run fails for want of bytes.** Every page is split, and each character of the index and of
all that makes up a partial, its text, its name, its path, the name of its file and where that lies,
is of ASCII or occurs in the page. So a page that could be read can be written in the same encoding,
whichever it is of those that are built in and whatever stands in the page: among whatever files a
run begins, and wherever its output goes, it does not fail because a character has no bytes. -/
theorem ofFile_isEncodable :
    (∀ (t : Text) (source : Option Text), ∃ notices e, ofText t source = (notices, .ok e) ∧
      e.indexContent.IsDrawnFrom t ∧ ∀ p ∈ e.partials, p.content.IsDrawnFrom t ∧
        p.name.IsDrawnFrom t ∧ p.fullPath.IsDrawnFrom t ∧ p.partialName.IsDrawnFrom t ∧
        p.relativePath.IsDrawnFrom t) ∧
    ∀ (o : Options) (input : Path) (w : Surroundings) (e : Unencodable), o.encoding.IsBuiltIn →
      ((ofFile o input).exec w).1 ≠ .error (.unencodable e) := by
  constructor
  · intro t source
    obtain ⟨notices, e, he, hdrawn, hascii⟩ := isDrawnFrom_ofText t source
    refine ⟨notices, e, he, hdrawn.index, fun p hp => ?_⟩
    obtain ⟨hname, hpath, hpartial, hrelative⟩ := hascii p hp
    exact ⟨hdrawn.partials p hp, hname.isDrawnFrom t, hpath.isDrawnFrom t, hpartial.isDrawnFrom t,
      hrelative.isDrawnFrom t⟩
  · intro o input w e ho h
    have hyields := yields_ofFile ho input w
    rw [h] at hyields
    exact hyields e rfl

/-- The output next to the page, in Latin-1. -/
def inLatin1 : Options := { Options.standard with encoding := .builtIn "latin-1".toList }

/-- A file system with a page in it that is kept in Latin-1 and has an accented letter in a
marker. -/
def withAccent : FileSystem :=
  ⟨[], [(["p".toList], .file ("<!-- begin: É -->\n".toList.map fun c => .ofNat c.toNat))]⟩

/-- That page can be read, and the accented letter is not in the way of what is written. -/
theorem ofFile_isEncodable_withAccent : inLatin1.encoding.IsBuiltIn ∧
    withAccent.readFile (.ofText "p".toList) =
      .ok ("<!-- begin: É -->\n".toList.map fun c => .ofNat c.toNat) ∧
    ((ofFile inLatin1 (.ofText "p".toList)).exec ([], withAccent)).1 ≠
      .error (.unencodable ⟨"latin-1".toList, 12, "É".toList, .range 0x100⟩) := by
  have hbuiltIn : inLatin1.encoding.IsBuiltIn := Encoding.isBuiltIn_builtIn _
  exact ⟨hbuiltIn, by rfl, ofFile_isEncodable.2 inLatin1 _ _ _ hbuiltIn⟩

end Extraction

end PagePartials
