import PagePartials.Proofs.FileSystem.Writing

/-!
# What changes do not touch

Directories are made and files are written, and nothing is ever taken away. So what a path led to
it leads to from then on, a directory stays one, and a file stays one. Which files may hold
something else is said by the paths that were written to: whatever none of them leads to is as it
was.

Two paths may lead to one place though they are different. Whether they do is settled once each of
them leads somewhere, and no change unsettles it.

## Main definitions

* `FileSystem.SamePlace fs p q`: the paths `p` and `q` lead to one place
* `FileSystem.Changes ps fs fs'`: from `fs` to `fs'` only files that the paths `ps` lead to have
  changed, and nothing is gone

## Main results

* `FileSystem.Changes.of_makeDirectory`, `FileSystem.Changes.of_writeFile`: what one change touches
* `FileSystem.Changes.trans`: what two changes touch
* `FileSystem.Changes.readFile_eq`: what a file holds that no change touches
-/

namespace PagePartials

namespace FileSystem

variable {fs fs' fs'' : FileSystem} {p q : Path} {ps qs : List Path} {l : Location}
  {bytes : Bytes}

/-! ## Paths to one place -/

/-- Whether two paths lead to one place. -/
def SamePlace (fs : FileSystem) (p q : Path) : Prop :=
  ∃ l, fs.resolve p = .ok l ∧ fs.resolve q = .ok l

theorem SamePlace.symm (h : SamePlace fs p q) : SamePlace fs q p := by
  obtain ⟨l, hp, hq⟩ := h
  exact ⟨l, hq, hp⟩

theorem samePlace_iff (hq : fs.resolve q = .ok l) : SamePlace fs p q ↔ fs.resolve p = .ok l := by
  constructor
  · rintro ⟨k, hp, hk⟩
    rw [hp, ← hk, hq]
  · intro hp
    exact ⟨l, hp, hq⟩

/-- Different plain paths lead to different places. -/
theorem not_samePlace_of_isPlain (hp : p.IsPlain) (hq : q.IsPlain) (hne : p ≠ q) :
    ¬ SamePlace fs p q := by
  rintro ⟨l, hpl, hql⟩
  have hnames : fs.here ++ p.names = fs.here ++ q.names :=
    (eq_of_resolve hp hpl).symm.trans (eq_of_resolve hq hql)
  obtain ⟨pa, pn⟩ := p
  obtain ⟨qa, qn⟩ := q
  obtain rfl : pa = .relative := hp.relative
  obtain rfl : qa = .relative := hq.relative
  have hn : pn = qn := List.append_cancel_left hnames
  exact hne (by rw [hn])

/-! ## Changes -/

/-- From the first file system to the second only files that the paths lead to have changed, and
nothing is gone. -/
structure Changes (ps : List Path) (fs fs' : FileSystem) : Prop where
  /-- A path that led somewhere leads there still. -/
  resolve_eq : ∀ {p l}, fs.resolve p = .ok l → fs'.resolve p = .ok l
  /-- A directory is a directory still. -/
  directory : ∀ {l}, fs.find? l = some .directory → fs'.find? l = some .directory
  /-- A file is a file still. -/
  file : ∀ {l}, (fs.fileAt? l).isSome → (fs'.fileAt? l).isSome
  /-- A file that none of the paths leads to holds what it held, and there is no new one. -/
  fileAt?_eq : ∀ {l}, (∀ p ∈ ps, fs'.resolve p ≠ .ok l) → fs'.fileAt? l = fs.fileAt? l

namespace Changes

theorem refl (ps : List Path) (fs : FileSystem) : Changes ps fs fs where
  resolve_eq h := h
  directory h := h
  file h := h
  fileAt?_eq _ := rfl

theorem mono (h : Changes ps fs fs') (hps : ps ⊆ qs) : Changes qs fs fs' where
  resolve_eq := h.resolve_eq
  directory := h.directory
  file := h.file
  fileAt?_eq hl := h.fileAt?_eq fun p hp => hl p (hps hp)

theorem trans (h : Changes ps fs fs') (h' : Changes qs fs' fs'') :
    Changes (ps ++ qs) fs fs'' where
  resolve_eq hp := h'.resolve_eq (h.resolve_eq hp)
  directory hl := h'.directory (h.directory hl)
  file hl := h'.file (h.file hl)
  fileAt?_eq hl := by
    -- A path that leads elsewhere in the end led elsewhere, if anywhere, after the first change.
    rw [h'.fileAt?_eq fun p hp => hl p (List.mem_append_right _ hp)]
    refine h.fileAt?_eq fun p hp heq => ?_
    exact hl p (List.mem_append_left _ hp) (h'.resolve_eq heq)

theorem trans_same (h : Changes ps fs fs') (h' : Changes ps fs' fs'') : Changes ps fs fs'' :=
  (h.trans h').mono (by simp)

theorem of_makeDirectory (h : fs.makeDirectory p = .ok fs') : Changes [] fs fs' := by
  have hfiles := fun l => (fileAt?_makeDirectory h l).1
  obtain ⟨k, hk, rfl, -⟩ := exists_of_makeDirectory h
  have hd : fs.find? k ≠ some .directory := by simp [hk]
  exact {
    resolve_eq := resolve_put hd
    directory := find?_put_of_directory hd
    file := fun {l} hl => by rwa [hfiles l]
    fileAt?_eq := fun {l} _ => hfiles l }

theorem of_writeFile (h : fs.writeFile p bytes = .ok fs') : Changes [p] fs fs' := by
  obtain ⟨k, hk, rfl, hr⟩ := exists_of_writeFile h
  have hfile (l : Location) (hl : l ≠ k) :
      (fs.put k (.file bytes)).fileAt? l = fs.fileAt? l := by
    rw [fileAt?, fileAt?, find?_put hk, if_neg hl]
  refine ⟨resolve_put hk, find?_put_of_directory hk, fun {l} hl => ?_, fun {l} hl => ?_⟩
  · by_cases hlk : l = k
    · simp [fileAt?, find?_put hk, hlk]
    · rwa [hfile l hlk]
  · refine hfile l fun hlk => hl p List.mem_cons_self ?_
    rw [hlk, hr]

/-- Two paths that each led somewhere lead to one place after a change just if they did before. -/
theorem samePlace_iff {k : Location} (h : Changes ps fs fs') (hp : fs.resolve p = .ok l)
    (hq : fs.resolve q = .ok k) : SamePlace fs' p q ↔ SamePlace fs p q := by
  rw [FileSystem.samePlace_iff (h.resolve_eq hq), FileSystem.samePlace_iff hq, h.resolve_eq hp, hp]

/-- A file that no change touches holds what it held. -/
theorem readFile_eq (h : Changes ps fs fs') (hp : ∀ q ∈ ps, ¬ SamePlace fs' q p)
    (hr : fs.readFile p = .ok bytes) : fs'.readFile p = .ok bytes := by
  obtain ⟨l, hl, hf⟩ := readFile_eq_ok_iff.mp hr
  have hl' := h.resolve_eq hl
  have hsame : fs'.fileAt? l = some bytes := by
    rw [h.fileAt?_eq fun q hq hql => hp q hq ⟨l, hql, hl'⟩, fileAt?, hf]
  exact readFile_eq_ok_iff.mpr ⟨l, hl', fileAt?_eq_some_iff.mp hsame⟩

end Changes

end FileSystem

end PagePartials
