import PagePartials.Proofs.Extraction.Endings
import PagePartials.Proofs.Extraction.Partials

/-!
# Reading a page

Reading a page leaves everything as it is, the notices and the files, whether it succeeds or not. So
a run on a page that cannot be read has done nothing when it ends. What keeps a page from being read
is told as such, with the path of the page: that there is no getting at the file, or that its bytes
are no text. No later step of a run tells of that. But where a codec refuses the bytes without
naming a place in them, the page does not count as unreadable, and the failure is another one.

## Main definitions

* `Task.Leaves x`: the task `x` leaves everything as it is

## Main results

* `Task.leaves_readText`: reading a page leaves everything as it is
* `Task.exec_readText`: what comes of reading a page
* `Task.fails_readText_of_fault`, `Task.fails_readText_of_undecodable`: how a page that cannot be
  read is told of
* `Task.fails_readText_of_refused`: what comes of bytes that are refused without a place in them
* `Extraction.runs_ofFile`, `Extraction.cases_of_fails_ofFile`: how a run on a page ends
* `Extraction.eq_of_fails_unreadable`: a run that cannot read its page has done nothing
-/

namespace PagePartials

namespace Task

variable {α β : Type} {w w' : Surroundings} {a : α} {f : Failure} {p q : Path}
  {encoding : Encoding}

/-- Whether the task leaves everything as it is, however it ends. -/
def Leaves (x : Task (StateM FileSystem) α) : Prop := ∀ w, (exec x w).2 = w

theorem leaves_pure (a : α) : Leaves (pure a) := fun _ => rfl

theorem leaves_throw (f : Failure) : Leaves (throw f : Task (StateM FileSystem) α) := fun _ => rfl

theorem leaves_lift {x : StateM FileSystem α} (hx : ∀ fs, (x fs).2 = fs) :
    Leaves (monadLift x : Task (StateM FileSystem) α) := fun w => Prod.ext rfl (hx w.2)

theorem Leaves.bind {x : Task (StateM FileSystem) α} {g : α → Task (StateM FileSystem) β}
    (hx : Leaves x) (hg : ∀ a, Leaves (g a)) : Leaves (x >>= g) := by
  intro w
  have hw := hx w
  rw [exec_bind]
  rcases hv : exec x w with ⟨e | a, v⟩
  · rwa [hv] at hw
  · rw [hv] at hw
    obtain rfl : v = w := hw
    exact hg a v

theorem leaves_refuse {refused : Prop} [Decidable refused] {f : Failure} :
    Leaves (if refused then throw f else pure ()) := by
  split
  · exact leaves_throw _
  · exact leaves_pure _

theorem leaves_refuseNull (p : Path) : Leaves (refuseNull p) := leaves_refuse

theorem leaves_refuseNullName (encoding : Encoding) : Leaves (refuseNullName encoding) :=
  leaves_refuse

/-- Reading a page leaves everything as it is. -/
theorem leaves_readText (p : Path) (encoding : Encoding) : Leaves (readText p encoding) := by
  unfold readText
  refine (leaves_refuseNullName encoding).bind fun _ => (leaves_refuseNull p).bind fun _ =>
    (leaves_lift fun _ => rfl).bind fun r => ?_
  rcases r with fault | bytes
  · exact leaves_throw _
  dsimp only
  split
  · exact leaves_throw _
  · split
    · exact leaves_throw _
    · exact leaves_throw _
    · exact leaves_pure _

theorem Leaves.eq_of_runs {x : Task (StateM FileSystem) α} (hx : Leaves x)
    (h : Runs x w a w') : w' = w := by
  have hw := hx w
  rwa [show exec x w = _ from h] at hw

theorem Leaves.eq_of_fails {x : Task (StateM FileSystem) α} (hx : Leaves x)
    (h : Fails x w f w') : w' = w := by
  have hw := hx w
  rwa [show exec x w = _ from h] at hw

/-! ## What comes of reading -/

section

variable (hp : '\x00' ∉ p.toText) (hencoding : '\x00' ∉ encoding.name)

include hp hencoding

/-- Where nothing is refused, the bytes of the page are asked for, and the text is what they are in
the encoding, with its newlines unified. -/
theorem exec_readText (w : Surroundings) : exec (readText p encoding) w =
    (match w.2.readFile p with
      | .error c => .error (.unreadable p (.fault ⟨c, p⟩))
      | .ok bytes =>
        match encoding.codec with
        | .error reason => .error (.noCodec encoding.name reason)
        | .ok codec =>
          match codec.decode bytes with
          | .error (.undecodable e) => .error (.unreadable p (.undecodable e))
          | .error (.refused message) => .error (.refusedByCodec message)
          | .ok t => .ok t.unifyNewlines, w) := by
  have hname : exec (refuseNullName encoding) w = (.ok (), w) :=
    runs_refuseNullName_iff.mpr ⟨hencoding, rfl⟩
  have hnull : exec (refuseNull p) w = (.ok (), w) := runs_refuseNull_iff.mpr ⟨hp, rfl⟩
  rw [readText, exec_bind, hname]
  simp only
  rw [exec_bind, hnull]
  simp only
  rw [exec_bind, show exec (monadLift (Files.read p : StateM FileSystem _)) w =
    (.ok ((w.2.readFile p).mapError fun c => Fault.mk c p), w) from rfl]
  cases w.2.readFile p with
  | error c => rfl
  | ok bytes =>
    simp only [Except.mapError]
    cases encoding.codec with
    | error reason => rfl
    | ok codec =>
      dsimp only
      rcases codec.decode bytes with (e | message) | t <;> rfl

/-- What does not come of a page once its bytes are asked for does not come of reading it. -/
theorem fails_readText_of_fault {c : Cause} (h : w.2.readFile p = .error c) :
    Fails (readText p encoding) w (.unreadable p (.fault ⟨c, p⟩)) w := by
  rw [Fails, exec_readText hp hencoding, h]

section

variable {codec : Codec} {bytes : Bytes} (hcodec : encoding.codec = .ok codec)
  (h : w.2.readFile p = .ok bytes)

include hcodec h

theorem fails_readText_of_undecodable {e : Undecodable}
    (he : codec.decode bytes = .error (.undecodable e)) :
    Fails (readText p encoding) w (.unreadable p (.undecodable e)) w := by
  rw [Fails, exec_readText hp hencoding, h]
  simp only [hcodec, he]

/-- Bytes that a codec refuses without naming a place in them make no unreadable page. -/
theorem fails_readText_of_refused {message : Text}
    (he : codec.decode bytes = .error (.refused message)) :
    Fails (readText p encoding) w (.refusedByCodec message) w := by
  rw [Fails, exec_readText hp hencoding, h]
  simp only [hcodec, he]

theorem runs_readText {t : Text} (ht : codec.decode bytes = .ok t) :
    Runs (readText p encoding) w t.unifyNewlines w := by
  rw [Runs, exec_readText hp hencoding, h]
  simp only [hcodec, ht]

end

end

end Task

/-! ## Runs on a page -/

/-- The failure is another one than that a page cannot be read. -/
def Failure.NotUnreadable (f : Failure) : Prop := ∀ p r, f ≠ .unreadable p r

theorem Failure.mayStopWriting_notUnreadable : MayStopWriting NotUnreadable :=
  ⟨nofun, nofun, fun _ _ => nofun, fun _ _ => nofun⟩

theorem Failure.notUnreadable_of_bytesOf {t : Text} {encoding : Encoding} {f : Failure}
    (h : Task.bytesOf t encoding = .error f) : f.NotUnreadable := by
  obtain ⟨_, -, rfl⟩ | ⟨_, e, -, -, rfl⟩ := Task.bytesOf_eq_error_iff.mp h
  · exact nofun
  · cases e <;> exact nofun

namespace Extraction

open PagePartials.Task

variable {o : Options} {e : Extraction} {input : Path} {w w' : Surroundings} {f : Failure}
  {written : List Path} {t : Text} {source : Option Text}

/-- Every page is split, and files take no part in it. -/
theorem exists_runs_ofPage (t : Text) (source : Option Text) (w : Surroundings) :
    ∃ notices e, ofText t source = (notices, .ok e) ∧
      Runs (ofPage t source) w e (w.1 ++ notices, w.2) := by
  obtain ⟨notices, e, he, -⟩ := partials_ofText t source
  refine ⟨notices, e, he, ?_⟩
  rw [ofPage, he]
  exact runs_bind_iff.mpr ⟨(), _, runs_report_iff.mpr rfl, runs_pure_iff.mpr ⟨rfl, rfl⟩⟩

/-- A run on a page that succeeds has read it, split it, and written all that it was split into. -/
theorem runs_ofFile (h : Runs (ofFile o input) w e w') :
    ∃ t notices written, Runs (readText input o.encoding) w t w ∧
      ofText t (some input.name) = (notices, .ok e) ∧
      Runs (write o e) (w.1 ++ notices, w.2) written w' := by
  obtain ⟨t, v, hv, h₁⟩ := runs_bind_iff.mp h
  obtain ⟨e', v', hv', h₂⟩ := runs_bind_iff.mp h₁
  obtain ⟨written, v'', hwritten, h₃⟩ := runs_bind_iff.mp h₂
  obtain ⟨rfl, rfl⟩ := runs_pure_iff.mp h₃
  obtain rfl := (leaves_readText input o.encoding).eq_of_runs hv
  obtain ⟨notices, e, he, hpage⟩ := exists_runs_ofPage t (some input.name) v
  obtain ⟨heq, rfl⟩ := Prod.mk.inj ((show exec _ v = _ from hpage).symm.trans hv')
  obtain rfl := Except.ok.inj heq
  exact ⟨t, notices, written, hv, he, hwritten⟩

/-- A run on a page that fails has failed in reading it, or in writing what it was split into. -/
theorem cases_of_fails_ofFile (h : Fails (ofFile o input) w f w') :
    Fails (readText input o.encoding) w f w' ∨ ∃ t notices e,
      Runs (readText input o.encoding) w t w ∧ ofText t (some input.name) = (notices, .ok e) ∧
        Fails (write o e) (w.1 ++ notices, w.2) f w' := by
  rcases fails_bind_iff.mp h with h₁ | ⟨t, v, hv, h₁⟩
  · exact .inl h₁
  obtain ⟨notices, e, he, hpage⟩ := exists_runs_ofPage t (some input.name) v
  rcases fails_bind_iff.mp h₁ with h₂ | ⟨e', v', hv', h₂⟩
  · exact absurd h₂ hpage.not_fails
  obtain ⟨heq, rfl⟩ := Prod.mk.inj ((show exec _ v = _ from hpage).symm.trans hv')
  obtain rfl := Except.ok.inj heq
  obtain rfl := (leaves_readText input o.encoding).eq_of_runs hv
  rcases fails_bind_iff.mp h₂ with h₃ | ⟨_, _, -, h₃⟩
  · exact .inr ⟨t, notices, e, hv, he, h₃⟩
  · exact absurd h₃ not_fails_pure

/-- A run ends where its page cannot be read, and has done nothing. -/
theorem fails_ofFile_of_readText (h : Fails (readText input o.encoding) w f w') :
    Fails (ofFile o input) w f w' ∧ w' = w :=
  ⟨fails_bind_iff.mpr (.inl h), (leaves_readText input o.encoding).eq_of_fails h⟩

/-- Only reading tells of a page that cannot be read; so a run that does has done nothing. -/
theorem eq_of_fails_unreadable {p : Path} {r : Unreadable}
    (h : Fails (ofFile o input) w (.unreadable p r) w') : w' = w := by
  rcases cases_of_fails_ofFile h with h | ⟨t, notices, e, -, -, h⟩
  · exact (leaves_readText input o.encoding).eq_of_fails h
  · have hyields := yields_write (o := o) (e := e) Failure.mayStopWriting_notUnreadable
      (fun _ _ _ => Failure.notUnreadable_of_bytesOf) (fun _ => Failure.notUnreadable_of_bytesOf)
    exact absurd rfl (hyields.of_fails h p r)

end Extraction

end PagePartials
