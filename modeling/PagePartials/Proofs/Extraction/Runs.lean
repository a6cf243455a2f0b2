import PagePartials.Extraction.Write
import PagePartials.Proofs.FileSystem.Changes
import PagePartials.Proofs.FileSystem.Directories
import Mathlib.Tactic.Common

/-!
# Running tasks

A task is run among the notices given so far and the files there are, and leaves others. What is
known of a task that succeeded is put together from its steps, each of which succeeded before the
next one began. For writing texts this says which files hold what at the end: a file holds what was
written to it last, and a file that nothing was written to holds what it held.

## Main definitions

* `Task.exec x w`: what the task `x`, begun in `w`, gives and leaves
* `Task.Runs x w a w'`: the task `x`, begun in `w`, succeeds with `a` and leaves `w'`
* `Task.Preserves I x`: the task `x` preserves the property `I` of file systems, however it ends

## Main results

* `Task.runs_bind_iff`: a task in two steps succeeds just if both do
* `Task.runs_writeText`: what was done when a text was written
* `Task.preserves_changes_writeText`: which files writing a text may change
* `Extraction.eq_of_runs_write`: the paths that an extraction is written to
* `Extraction.readFile_write`: what the files hold when an extraction was written
* `Extraction.preserves_write`: what writing an extraction preserves, successful or not
-/

namespace PagePartials

/-- The notices given so far and the files there are. -/
abbrev Surroundings := List Notice × FileSystem

namespace Task

open FileSystem (Changes not_samePlace_of_isPlain)

variable {α β : Type} {w w' : Surroundings} {a : α} {b : β} {u : Unit} {p : Path} {t : Text}
  {encoding : Encoding}

/-- What a task gives, and the notices and the files it leaves. -/
def exec (x : Task (StateM FileSystem) α) (w : Surroundings) : Except Failure α × Surroundings :=
  let ((a, notices), fs) := (x.run.run w.1).run w.2
  (a, notices, fs)

/-- `Runs x w a w'`: the task `x`, begun in `w`, succeeds with `a` and leaves `w'`. -/
def Runs (x : Task (StateM FileSystem) α) (w : Surroundings) (a : α) (w' : Surroundings) : Prop :=
  exec x w = (.ok a, w')

theorem exec_bind (x : Task (StateM FileSystem) α) (f : α → Task (StateM FileSystem) β)
    (w : Surroundings) : exec (x >>= f) w =
      match exec x w with
      | (.ok a, v) => exec (f a) v
      | (.error e, v) => (.error e, v) := by
  unfold exec
  rw [ExceptT.run_bind, StateT.run_bind, StateT.run_bind]
  rcases (x.run.run w.1).run w.2 with ⟨⟨e | a, ns⟩, fs⟩ <;> rfl

theorem runs_pure_iff {c : α} : Runs (pure c) w a w' ↔ c = a ∧ w = w' := by
  show (Except.ok c, w) = (.ok a, w') ↔ _
  simp

theorem not_runs_throw {f : Failure} : ¬ Runs (throw f) w a w' := by
  show ¬ (Except.error f, w) = (.ok a, w')
  simp

theorem runs_bind_iff {x : Task (StateM FileSystem) α} {f : α → Task (StateM FileSystem) β} :
    Runs (x >>= f) w b w' ↔ ∃ a v, Runs x w a v ∧ Runs (f a) v b w' := by
  unfold Runs
  rw [exec_bind]
  rcases exec x w with ⟨e | a, v⟩
  · simp
  · constructor
    · exact fun h => ⟨a, v, rfl, h⟩
    · rintro ⟨a', v', hv, h⟩
      obtain ⟨ha, rfl⟩ := Prod.mk.inj hv
      rw [Except.ok.inj ha]
      exact h

/-- Asking for files leaves the notices as they are. -/
theorem runs_lift_iff {x : StateM FileSystem α} :
    Runs (monadLift x : Task (StateM FileSystem) α) w a w' ↔
      x w.2 = (a, w'.2) ∧ w.1 = w'.1 := by
  show (Except.ok (x w.2).1, w.1, (x w.2).2) = (.ok a, w'.1, w'.2) ↔ _
  constructor
  · intro h
    simp only [Prod.mk.injEq, Except.ok.injEq] at h
    exact ⟨Prod.ext h.1 h.2.2, h.2.1⟩
  · rintro ⟨hx, hw⟩
    rw [hx, hw]

theorem runs_report_iff {ns : List Notice} :
    Runs (report ns) w u w' ↔ w' = (w.1 ++ ns, w.2) := by
  show (Except.ok (), w.1 ++ ns, w.2) = (.ok u, w') ↔ _
  simp [eq_comm]

theorem bytesOf_eq_ok_iff {bytes : Bytes} : bytesOf t encoding = .ok bytes ↔
    ∃ codec, encoding.codec = .ok codec ∧ codec.encode t = .ok bytes := by
  unfold bytesOf
  split
  next hnone => simp [hnone]
  next codec hcodec => cases he : codec.encode t <;> simp [hcodec, he, Except.mapError]

/-- Why a text has no bytes: the name stands for no codec, or the codec gives none. -/
theorem bytesOf_eq_error_iff {f : Failure} : bytesOf t encoding = .error f ↔
    (∃ reason, encoding.codec = .error reason ∧ .noCodec encoding.name reason = f) ∨
      ∃ codec e, encoding.codec = .ok codec ∧ codec.encode t = .error e ∧
        .ofEncodingError e = f := by
  unfold bytesOf
  split
  next hnone => simp [hnone]
  next codec hcodec => cases he : codec.encode t <;> simp [hcodec, he, Except.mapError]

/-- A task that refuses something succeeds if that is not there, and does nothing. -/
theorem runs_refuse_iff {refused : Prop} [Decidable refused] {f : Failure} :
    Runs (if refused then throw f else pure ()) w u w' ↔ ¬ refused ∧ w = w' := by
  split
  next h => exact ⟨fun hr => absurd hr not_runs_throw, fun hr => absurd h hr.1⟩
  next h => rw [runs_pure_iff, and_iff_right rfl, and_iff_right h]

theorem runs_refuseNull_iff : Runs (refuseNull p) w u w' ↔ '\x00' ∉ p.toText ∧ w = w' := by
  rw [refuseNull, runs_refuse_iff, List.contains_iff_mem]

theorem runs_refuseNullName_iff :
    Runs (refuseNullName encoding) w u w' ↔ '\x00' ∉ encoding.name ∧ w = w' := by
  rw [refuseNullName, runs_refuse_iff, List.contains_iff_mem]

theorem runs_writeText (h : Runs (writeText p t encoding) w u w') :
    '\x00' ∉ encoding.name ∧ '\x00' ∉ p.toText ∧ ∃ bytes fs, bytesOf t encoding = .ok bytes ∧
      (Files.makeParents p.parent : StateM FileSystem _) w.2 = (.ok (), fs) ∧
      fs.writeFile p bytes = .ok w'.2 ∧ w.1 = w'.1 := by
  -- Nothing is refused and no fault comes up, or the task would not have succeeded.
  unfold writeText at h
  obtain ⟨_, w₁, hw₁, h⟩ := runs_bind_iff.mp h
  obtain ⟨r, w₂, hw₂, h⟩ := runs_bind_iff.mp h
  obtain ⟨hm, hn⟩ := runs_lift_iff.mp hw₂
  rcases r with fault | ⟨⟩
  · obtain ⟨_, _, ht, -⟩ := runs_bind_iff.mp h
    exact absurd ht not_runs_throw
  obtain ⟨_, w₃, hw₃, h⟩ := runs_bind_iff.mp h
  obtain ⟨_, w₄, hw₄, h⟩ := runs_bind_iff.mp h
  obtain ⟨-, rfl⟩ := runs_refuseNull_iff.mp hw₁
  obtain ⟨hencoding, rfl⟩ := runs_refuseNullName_iff.mp hw₃
  obtain ⟨hp, rfl⟩ := runs_refuseNull_iff.mp hw₄
  refine ⟨hencoding, hp, ?_⟩
  split at h
  next bytes hb =>
    obtain ⟨r, v, hv, h⟩ := runs_bind_iff.mp h
    obtain ⟨hx, hn'⟩ := runs_lift_iff.mp hv
    rcases r with fault | ⟨⟩
    · exact absurd h not_runs_throw
    obtain ⟨-, rfl⟩ := runs_pure_iff.mp h
    exact ⟨bytes, w₂.2, hb, hm, FileSystem.attempt_eq_ok_iff.mp hx, hn.trans hn'⟩
  next failure hb =>
    -- Without bytes the task fails after the file is made.
    obtain ⟨r, v, hv, h⟩ := runs_bind_iff.mp h
    rcases r with fault | ⟨⟩
    · obtain ⟨_, _, ht, -⟩ := runs_bind_iff.mp h
      exact absurd ht not_runs_throw
    · exact absurd h not_runs_throw

/-- What was written to a file is in it. -/
theorem readFile_writeText (h : Runs (writeText p t encoding) w u w') :
    ∃ bytes, bytesOf t encoding = .ok bytes ∧ w'.2.readFile p = .ok bytes := by
  obtain ⟨-, -, bytes, fs, hb, -, hw, -⟩ := runs_writeText h
  exact ⟨bytes, hb, FileSystem.readFile_writeFile hw⟩

/-! ## What a task preserves -/

/-- Whether what holds of the files before the task holds of them after, however it ends. -/
def Preserves {α : Type} (I : FileSystem → Prop) (x : Task (StateM FileSystem) α) : Prop :=
  ∀ w, I w.2 → I (exec x w).2.2

section

variable {α β : Type} {I : FileSystem → Prop} {p : Path}

theorem preserves_pure (a : α) : Preserves I (pure a) := fun _ h => h

theorem preserves_throw (f : Failure) : Preserves I (throw f : Task (StateM FileSystem) α) :=
  fun _ h => h

theorem preserves_throw_bind (f : Failure) (g : β → Task (StateM FileSystem) α) :
    Preserves I (throw f >>= g) := fun _ h => h

theorem preserves_report (ns : List Notice) : Preserves I (report ns) := fun _ h => h

theorem preserves_lift {x : StateM FileSystem α} (hx : FileSystem.Preserves I x) :
    Preserves I (monadLift x : Task (StateM FileSystem) α) := fun w h => hx w.2 h

theorem Preserves.bind {x : Task (StateM FileSystem) α} {f : α → Task (StateM FileSystem) β}
    (hx : Preserves I x) (hf : ∀ a, Preserves I (f a)) : Preserves I (x >>= f) := by
  intro w h
  have hv := hx w h
  rw [exec_bind]
  rcases hw : exec x w with ⟨e | a, v⟩
  · rwa [hw] at hv
  · rw [hw] at hv
    exact hf a v hv

theorem preserves_refuse {refused : Prop} [Decidable refused] {f : Failure} :
    Preserves I (if refused then throw f else pure ()) := by
  split
  · exact preserves_throw _
  · exact preserves_pure _

theorem preserves_refuseNull (p : Path) : Preserves I (refuseNull p) := preserves_refuse

theorem preserves_refuseNullName (encoding : Encoding) : Preserves I (refuseNullName encoding) :=
  preserves_refuse

variable (hI : ∀ q gs gs', gs.makeDirectory q = .ok gs' → I gs → I gs')

include hI

theorem preserves_makeDirectory (p : Path) : Preserves I (makeDirectory p) := by
  refine (preserves_refuseNull p).bind fun _ =>
    (preserves_lift (FileSystem.preserves_makeParents hI p)).bind fun r => ?_
  rcases r with fault | ⟨⟩
  · exact preserves_throw _
  · exact preserves_pure _

/-- What making one directory preserves, and writing a file at the path as well, writing a text
there preserves, whether the directories can be made and the text has bytes or not. -/
theorem preserves_writeText
    (hwrite : ∀ bytes gs gs', gs.writeFile p bytes = .ok gs' → I gs → I gs') (t : Text)
    (encoding : Encoding) : Preserves I (writeText p t encoding) := by
  have hput (bytes : Bytes) :
      FileSystem.Preserves I (Files.write p bytes : StateM FileSystem _) :=
    FileSystem.preserves_attempt fun gs gs' => hwrite bytes gs gs'
  unfold writeText
  refine (preserves_refuseNull _).bind fun _ =>
    (preserves_lift (FileSystem.preserves_makeParents hI p.parent)).bind fun r => ?_
  rcases r with fault | ⟨⟩
  · exact preserves_throw_bind _ _
  refine (preserves_refuseNullName _).bind fun _ => (preserves_refuseNull _).bind fun _ => ?_
  split
  next bytes _ =>
    refine (preserves_lift (hput bytes)).bind fun r => ?_
    rcases r with fault | ⟨⟩
    · exact preserves_throw _
    · exact preserves_pure _
  next failure _ =>
    refine (preserves_lift (hput [])).bind fun r => ?_
    rcases r with fault | ⟨⟩
    · exact preserves_throw_bind _ _
    · exact preserves_throw _

end

theorem Preserves.of_runs {I : FileSystem → Prop} {x : Task (StateM FileSystem) α}
    (hx : Preserves I x) (hI : I w.2) (h : Runs x w a w') : I w'.2 := by
  have hw := hx w hI
  rwa [show exec x w = _ from h] at hw

/-! ## What a task changes -/

theorem preserves_changes_makeDirectory (p : Path) (fs : FileSystem) :
    Preserves (Changes [] fs) (makeDirectory p) :=
  preserves_makeDirectory (fun _ _ _ h hI => hI.trans (.of_makeDirectory h)) p

theorem preserves_changes_writeText (p : Path) (t : Text) (encoding : Encoding)
    (fs : FileSystem) : Preserves (Changes [p] fs) (writeText p t encoding) := by
  refine preserves_writeText ?_ ?_ t encoding
  · intro q gs gs' h hI
    exact hI.trans_same ((Changes.of_makeDirectory h).mono (List.nil_subset _))
  · intro bytes gs gs' h hI
    exact hI.trans_same (.of_writeFile h)

theorem Runs.changes_makeDirectory (h : Runs (makeDirectory p) w u w') : Changes [] w.2 w'.2 :=
  (preserves_changes_makeDirectory p w.2).of_runs (.refl _ w.2) h

theorem Runs.changes_writeText (h : Runs (writeText p t encoding) w u w') :
    Changes [p] w.2 w'.2 :=
  (preserves_changes_writeText p t encoding w.2).of_runs (.refl _ w.2) h

/-- Writing to a file leaves the others as they are. -/
theorem readFile_writeText_of_ne {q : Path} {bytes : Bytes} (hp : p.IsPlain) (hq : q.IsPlain)
    (hne : q ≠ p) (h : Runs (writeText p t encoding) w u w')
    (hr : w.2.readFile q = .ok bytes) : w'.2.readFile q = .ok bytes := by
  refine h.changes_writeText.readFile_eq (fun r hr => ?_) hr
  rw [List.mem_singleton.mp hr]
  exact not_samePlace_of_isPlain hp hq hne.symm

end Task

open PagePartials.Task

namespace Extraction

variable {o : Options} {e : Extraction} {p : Partial} {ps : List Partial} {w w' : Surroundings}
  {written : List Path}

theorem runs_writePartials_cons (h : Runs (writePartials o (p :: ps)) w written w') :
    ∃ u v rest, Runs (writeText (o.target p) p.content o.encoding) w u v ∧
      Runs (writePartials o ps) (v.1 ++ [.wrotePartial (o.target p) p.fullPath], v.2) rest w' ∧
      written = o.target p :: rest := by
  rw [writePartials] at h
  obtain ⟨u, v, hv, h₁⟩ := runs_bind_iff.mp h
  obtain ⟨_, v', hv', h₂⟩ := runs_bind_iff.mp h₁
  obtain ⟨rest, v'', hr, h₃⟩ := runs_bind_iff.mp h₂
  obtain ⟨rfl, rfl⟩ := runs_pure_iff.mp h₃
  rw [runs_report_iff.mp hv'] at hr
  exact ⟨u, v, rest, hv, hr, rfl⟩

/-- The paths that partials are written to, one for each in their order. -/
theorem eq_of_runs_writePartials (h : Runs (writePartials o ps) w written w') :
    written = ps.map o.target := by
  induction ps generalizing w written with
  | nil => exact (runs_pure_iff.mp h).1.symm
  | cons p ps ih =>
    obtain ⟨_, _, rest, -, hrest, rfl⟩ := runs_writePartials_cons h
    rw [ih hrest, List.map_cons]

theorem readFile_writePartials_of_notMem {q : Path} {bytes : Bytes} (hq : q.IsPlain)
    (hps : ∀ p ∈ ps, (o.target p).IsPlain ∧ q ≠ o.target p)
    (h : Runs (writePartials o ps) w written w') (hr : w.2.readFile q = .ok bytes) :
    w'.2.readFile q = .ok bytes := by
  induction ps generalizing w written with
  | nil =>
    obtain ⟨-, rfl⟩ := runs_pure_iff.mp h
    exact hr
  | cons p ps ih =>
    obtain ⟨⟨hp, hne⟩, hrest⟩ := List.forall_mem_cons.mp hps
    obtain ⟨_, v, _, hv, hw, -⟩ := runs_writePartials_cons h
    have hkeep := readFile_writeText_of_ne hp hq hne hv hr
    exact ih hrest hw hkeep

/-- A file that partials were written to holds the last of them. -/
theorem readFile_writePartials (hps : ∀ p ∈ ps, (o.target p).IsPlain) {xs ys : List Partial}
    (hsplit : ps = xs ++ p :: ys) (hlast : ∀ q ∈ ys, o.target p ≠ o.target q)
    (h : Runs (writePartials o ps) w written w') :
    ∃ bytes, bytesOf p.content o.encoding = .ok bytes ∧
      w'.2.readFile (o.target p) = .ok bytes := by
  -- By induction on the partials written before this one.
  induction xs generalizing ps w written with
  | nil =>
    obtain rfl : ps = p :: ys := hsplit
    obtain ⟨hp, hys⟩ := List.forall_mem_cons.mp hps
    obtain ⟨_, v, _, hv, hw, -⟩ := runs_writePartials_cons h
    obtain ⟨bytes, hb, hr⟩ := readFile_writeText hv
    have hkeep := readFile_writePartials_of_notMem hp (fun q hq => ⟨hys q hq, hlast q hq⟩) hw hr
    exact ⟨bytes, hb, hkeep⟩
  | cons x xs ih =>
    obtain rfl : ps = x :: (xs ++ p :: ys) := hsplit
    obtain ⟨-, hrest⟩ := List.forall_mem_cons.mp hps
    obtain ⟨_, v, _, -, hw, -⟩ := runs_writePartials_cons h
    exact ih hrest rfl hw

theorem runs_write (h : Runs (write o e) w written w') :
    ∃ v ws v' u v'', Runs (makeDirectory o.partialsDirectory) w () v ∧
      Runs (writePartials o e.partials) v ws v' ∧
      Runs (writeText o.indexPath e.indexContent o.encoding) v' u v'' ∧
      w' = (v''.1 ++ [.wroteIndex o.indexPath], v''.2) ∧ written = ws ++ [o.indexPath] := by
  obtain ⟨_, v, hv, h₁⟩ := runs_bind_iff.mp h
  obtain ⟨ws, v', hws, h₂⟩ := runs_bind_iff.mp h₁
  obtain ⟨u, v'', hi, h₃⟩ := runs_bind_iff.mp h₂
  obtain ⟨_, w₃, hr, h₄⟩ := runs_bind_iff.mp h₃
  obtain ⟨rfl, rfl⟩ := runs_pure_iff.mp h₄
  exact ⟨v, ws, v', u, v'', hv, hws, hi, runs_report_iff.mp hr, rfl⟩

/-- The paths that an extraction is written to: one for each partial, and the index. -/
theorem eq_of_runs_write (h : Runs (write o e) w written w') :
    written = e.partials.map o.target ++ [o.indexPath] := by
  obtain ⟨_, ws, _, _, _, -, hws, -, -, rfl⟩ := runs_write h
  rw [eq_of_runs_writePartials hws]

/-- After an extraction was written, a file that partials were written to holds the last of them,
unless the index has taken its place. -/
theorem readFile_write (hps : ∀ p ∈ e.partials, (o.target p).IsPlain) (hi : o.indexPath.IsPlain)
    {xs ys : List Partial} (hsplit : e.partials = xs ++ p :: ys)
    (hlast : ∀ q ∈ ys, o.target p ≠ o.target q) (hne : o.target p ≠ o.indexPath)
    (h : Runs (write o e) w written w') :
    ∃ bytes, bytesOf p.content o.encoding = .ok bytes ∧
      w'.2.readFile (o.target p) = .ok bytes := by
  obtain ⟨_, _, v', _, v'', -, hws, hx, rfl, -⟩ := runs_write h
  obtain ⟨bytes, hb, hr⟩ := readFile_writePartials hps hsplit hlast hws
  have hp : (o.target p).IsPlain := hps p (by simp [hsplit])
  have hkeep := readFile_writeText_of_ne hi hp hne hx hr
  exact ⟨bytes, hb, hkeep⟩

section

variable {I : FileSystem → Prop}
  (hmake : ∀ q gs gs', gs.makeDirectory q = .ok gs' → I gs → I gs')

include hmake

theorem preserves_writePartials
    (hps : ∀ p ∈ ps, ∀ bytes gs gs', gs.writeFile (o.target p) bytes = .ok gs' → I gs → I gs') :
    Preserves I (writePartials o ps) := by
  induction ps with
  | nil => exact preserves_pure _
  | cons p ps ih =>
    obtain ⟨hp, hrest⟩ := List.forall_mem_cons.mp hps
    rw [writePartials]
    exact (preserves_writeText hmake hp _ _).bind fun _ => (preserves_report _).bind fun _ =>
      (ih hrest).bind fun _ => preserves_pure _

/-- What making one directory preserves, and writing a file where a partial or the index goes as
well, writing an extraction preserves, and that at whichever file it stops. -/
theorem preserves_write
    (hps : ∀ p ∈ e.partials, ∀ bytes gs gs',
      gs.writeFile (o.target p) bytes = .ok gs' → I gs → I gs')
    (hindex : ∀ bytes gs gs', gs.writeFile o.indexPath bytes = .ok gs' → I gs → I gs') :
    Preserves I (write o e) :=
  (preserves_makeDirectory hmake _).bind fun _ => (preserves_writePartials hmake hps).bind fun _ =>
    (preserves_writeText hmake hindex _ _).bind fun _ => (preserves_report _).bind fun _ =>
      preserves_pure _

end

end Extraction

end PagePartials
