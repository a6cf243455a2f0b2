import PagePartials.Proofs.Encoding.RoundTrip
import PagePartials.Proofs.Extraction.Endings
import PagePartials.Proofs.Extraction.Partials
import PagePartials.Proofs.FileSystem.Changes

/-!
# Where writing stops

The texts of an extraction, those of the partials and that of the index, are written one after the
other, each to its path. Two of the paths may lead to one place, and then the later text takes the
place of the earlier. However many were written when the writing ends, with the last of them or
because the next one fails, each path that was written to holds the text that came last to its
place, and every other file is as it was. A text that fails may have taken its own file with it, as
far as it got, but no other: a text that was written stays unless the failing one was to take its
place, and the index, which comes last, is not touched by partials that fail.

## Main definitions

* `Output`: a text and the path it is written to
* `Extraction.outputs o e`: the outputs of an extraction, the index last
* `Written encoding fs outs fs'`: the outputs `outs` have been written, one after the other
* `IsLastAt fs outs p t`: `t` is the text that comes last to the place of `p`
* `HoldsLast fs encoding outs p`: the file at `p` holds the text that came last to its place
* `Extraction.StopsAt o e w k out f w'`: writing stops at output number `k`

## Main results

* `Written.changes`, `Written.holdsLast`: what the files hold after outputs were written
* `HoldsLast.of_changes`: and what they hold still after a failure
* `Extraction.write_touches`: what writing an extraction does, wherever it stops
-/

namespace PagePartials

/-- A text and the path it is written to. -/
structure Output where
  path : Path
  text : Text

open PagePartials.Task FileSystem

variable {encoding : Encoding} {t : Text} {fs gs gs' : FileSystem} {outs : List Output}
  {out : Output} {p q : Path} {ps : List Path} {f : Failure} {u : Unit}
  {w w' v v' : Surroundings}

/-! ## The last text of each place -/

/-- Whether the text is the last one of the outputs that comes to the place of the path. -/
def IsLastAt (fs : FileSystem) (outs : List Output) (p : Path) (t : Text) : Prop :=
  ∃ before q behind, outs = before ++ ⟨q, t⟩ :: behind ∧ fs.SamePlace q p ∧
    ∀ out ∈ behind, ¬ fs.SamePlace out.path p

/-- Whether the file at the path holds the bytes of the text that came last to its place. -/
def HoldsLast (fs : FileSystem) (encoding : Encoding) (outs : List Output) (p : Path) : Prop :=
  ∃ t bytes, IsLastAt fs outs p t ∧ encoding.IsBytesOf t bytes ∧ fs.readFile p = .ok bytes

theorem IsLastAt.concat_of_not_samePlace (h : IsLastAt fs outs p t)
    (hout : ¬ fs.SamePlace out.path p) : IsLastAt fs (outs ++ [out]) p t := by
  obtain ⟨before, q, behind, rfl, hq, hbehind⟩ := h
  refine ⟨before, q, behind ++ [out], by simp, hq, ?_⟩
  rw [List.forall_mem_append, List.forall_mem_singleton]
  exact ⟨hbehind, hout⟩

theorem isLastAt_concat (h : fs.SamePlace out.path p) :
    IsLastAt fs (outs ++ [out]) p out.text :=
  ⟨outs, out.path, [], rfl, h, nofun⟩

/-- What holds the last text holds it still after changes of files in other places, if each of the
outputs has its place. -/
theorem HoldsLast.of_changes (h : HoldsLast fs encoding outs p)
    (houts : ∀ out ∈ outs, ∃ l, fs.resolve out.path = .ok l) (hc : Changes ps fs gs)
    (hps : ∀ q ∈ ps, ¬ gs.SamePlace q p) : HoldsLast gs encoding outs p := by
  obtain ⟨t, bytes, ⟨before, q, behind, heq, hq, hbehind⟩, hbytes, hread⟩ := h
  obtain ⟨l, hl, -⟩ := readFile_eq_ok_iff.mp hread
  have hplace (out : Output) (hout : out ∈ outs) :
      gs.SamePlace out.path p ↔ fs.SamePlace out.path p := by
    obtain ⟨k, hk⟩ := houts out hout
    exact hc.samePlace_iff hk hl
  refine ⟨t, bytes, ⟨before, q, behind, heq, ?_, ?_⟩, hbytes, hc.readFile_eq hps hread⟩
  · exact (hplace ⟨q, t⟩ (by simp [heq])).mpr hq
  · intro out hout hsame
    exact hbehind out hout ((hplace out (by simp [heq, hout])).mp hsame)

/-- What was written to a file are the bytes of the text. -/
theorem exists_isBytesOf_of_runs (h : Runs (writeText p t encoding) w u w') :
    ∃ bytes, encoding.IsBytesOf t bytes ∧ w'.2.readFile p = .ok bytes := by
  obtain ⟨bytes, hbytes, hread⟩ := readFile_writeText h
  obtain ⟨codec, hcodec, hencode⟩ := bytesOf_eq_ok_iff.mp hbytes
  exact ⟨bytes, Encoding.isBytesOf_of_encode hcodec hencode, hread⟩

/-! ## Many texts -/

/-- `Written encoding fs outs fs'`: the outputs have been written one after the other. -/
inductive Written (encoding : Encoding) (fs : FileSystem) : List Output → FileSystem → Prop
  | nil : Written encoding fs [] fs
  | concat {outs : List Output} {out : Output} {v v' : Surroundings} {u : Unit}
      (h : Written encoding fs outs v.2)
      (hout : Runs (writeText out.path out.text encoding) v u v') :
      Written encoding fs (outs ++ [out]) v'.2

namespace Written

theorem changes (h : Written encoding fs outs gs) : Changes (outs.map Output.path) fs gs := by
  induction h with
  | nil => exact .refl [] fs
  | concat _ hout ih => simpa using ih.trans hout.changes_writeText

/-- The path of each output that was written leads somewhere. -/
theorem exists_resolve_eq (h : Written encoding fs outs gs) :
    ∀ out ∈ outs, ∃ l, gs.resolve out.path = .ok l := by
  induction h with
  | nil => exact nofun
  | concat _ hout ih =>
    rw [List.forall_mem_append, List.forall_mem_singleton]
    constructor
    · intro out hmem
      obtain ⟨l, hl⟩ := ih out hmem
      exact ⟨l, hout.changes_writeText.resolve_eq hl⟩
    · obtain ⟨bytes, -, hread⟩ := readFile_writeText hout
      obtain ⟨l, hl, -⟩ := readFile_eq_ok_iff.mp hread
      exact ⟨l, hl⟩

/-- Every path that was written to holds the text that came last to its place. -/
theorem holdsLast (h : Written encoding fs outs gs) :
    ∀ p ∈ outs.map Output.path, HoldsLast gs encoding outs p := by
  induction h with
  | nil => exact nofun
  | @concat outs out v v' u hv hout ih =>
    obtain ⟨bytes, hbytes, hread⟩ := exists_isBytesOf_of_runs hout
    obtain ⟨l, hl, hfile⟩ := readFile_eq_ok_iff.mp hread
    intro p hp
    by_cases hsame : v'.2.SamePlace out.path p
    -- The last output has come to the place of the path,
    · refine ⟨out.text, bytes, isLastAt_concat hsame, hbytes, ?_⟩
      have hpl : v'.2.resolve p = .ok l := (samePlace_iff hl).mp hsame.symm
      exact readFile_eq_ok_iff.mpr ⟨l, hpl, hfile⟩
    -- or to another place, and so the path is that of an earlier one.
    · have hmem : p ∈ outs.map Output.path := by
        rw [List.map_append, List.mem_append] at hp
        refine hp.resolve_right fun hp => hsame ?_
        rw [List.mem_singleton.mp hp]
        exact ⟨l, hl, hl⟩
      have hlast := (ih p hmem).of_changes hv.exists_resolve_eq hout.changes_writeText
        (by simpa using hsame)
      obtain ⟨t, b, ht, hb, hr⟩ := hlast
      exact ⟨t, b, ht.concat_of_not_samePlace hsame, hb, hr⟩

end Written

/-! ## An extraction -/

namespace Extraction

variable {o : Options} {e : Extraction} {ds : List Partial} {k : Nat} {ws : List Path}

/-- The output of a partial: its text, to its path below the directory of partials. -/
def outputOf (o : Options) (d : Partial) : Output :=
  ⟨o.partialsDirectory / .ofText d.relativePath, d.content⟩

/-- The outputs of an extraction, the index last. -/
def outputs (o : Options) (e : Extraction) : List Output :=
  e.partials.map (outputOf o) ++ [⟨o.indexPath, e.indexContent⟩]

/-- `StopsAt o e w k out f w'`: begun in `w`, writing the extraction comes to `out`, the output of
number `k`, and fails there with `f`, which leaves `w'`. The directory of partials has been made,
and the outputs before this one have been written. -/
def StopsAt (o : Options) (e : Extraction) (w : Surroundings) (k : Nat) (out : Output)
    (f : Failure) (w' : Surroundings) : Prop :=
  (outputs o e)[k]? = some out ∧ ∃ v v', Runs (makeDirectory o.partialsDirectory) w () v ∧
    Written o.encoding v.2 ((outputs o e).take k) v'.2 ∧
    Fails (writeText out.path out.text o.encoding) v' f w'

/-- The partials that are written after others have been written with them. -/
theorem written_of_runs_writePartials (h : Written o.encoding fs outs w.2)
    (hds : Runs (writePartials o ds) w ws w') :
    Written o.encoding fs (outs ++ ds.map (outputOf o)) w'.2 := by
  induction ds generalizing outs w ws with
  | nil =>
    obtain ⟨-, rfl⟩ := runs_pure_iff.mp hds
    simpa using h
  | cons d ds ih =>
    obtain ⟨u, v, rest, hd, hrest, -⟩ := runs_writePartials_cons hds
    have hout : Runs (writeText (outputOf o d).path (outputOf o d).text o.encoding) w u v := hd
    have hv : Written o.encoding fs (outs ++ [outputOf o d]) v.2 := h.concat hout
    have hw := ih (w := (v.1 ++ [.wrotePartial (o.target d) d.fullPath], v.2)) hv hrest
    simpa using hw

/-- When an extraction has been written, so have all its outputs, the directory of partials being
there. -/
theorem exists_written_of_runs (h : Runs (write o e) w ws w') :
    ∃ v, Runs (makeDirectory o.partialsDirectory) w () v ∧
      Written o.encoding v.2 (outputs o e) w'.2 := by
  obtain ⟨v, ws, v', u, v'', hv, hds, hindex, rfl, -⟩ := runs_write h
  refine ⟨v, hv, ?_⟩
  have hpartials := written_of_runs_writePartials .nil hds
  let out : Output := ⟨o.indexPath, e.indexContent⟩
  have hout : Runs (writeText out.path out.text o.encoding) v' u v'' := hindex
  have hall : Written o.encoding v.2 (outputs o e) v''.2 := hpartials.concat hout
  exact hall

/-- An extraction that has been written has touched the paths of its outputs and no other file, and
each of them holds the text that came last to its place. -/
theorem holdsLast_of_runs (h : Runs (write o e) w ws w') :
    ws = (outputs o e).map Output.path ∧ Changes ws w.2 w'.2 ∧
      ∀ p ∈ ws, HoldsLast w'.2 o.encoding (outputs o e) p := by
  have houts : ws = (outputs o e).map Output.path := by
    rw [eq_of_runs_write h, outputs, List.map_append, List.map_map]
    rfl
  obtain ⟨v, hv, hwritten⟩ := exists_written_of_runs h
  rw [houts]
  exact ⟨rfl, hv.changes_makeDirectory.trans hwritten.changes, hwritten.holdsLast⟩

namespace StopsAt

theorem changes (h : StopsAt o e w k out f w') :
    Changes (((outputs o e).take (k + 1)).map Output.path) w.2 w'.2 := by
  obtain ⟨hk, v, v', hv, hwritten, hout⟩ := h
  have hc := (hv.changes_makeDirectory.trans hwritten.changes).trans hout.changes_writeText
  rw [List.take_add_one, hk]
  simpa using hc

/-- What was written before holds the last of its texts, unless the failing one was to take its
place. -/
theorem holdsLast (h : StopsAt o e w k out f w') {p : Path}
    (hp : p ∈ ((outputs o e).take k).map Output.path) (hne : ¬ w'.2.SamePlace out.path p) :
    HoldsLast w'.2 o.encoding ((outputs o e).take k) p := by
  obtain ⟨-, v, v', -, hwritten, hout⟩ := h
  exact (hwritten.holdsLast p hp).of_changes hwritten.exists_resolve_eq hout.changes_writeText
    (by simpa using hne)

end StopsAt

end Extraction

end PagePartials
