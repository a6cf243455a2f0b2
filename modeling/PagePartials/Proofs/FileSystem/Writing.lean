import PagePartials.FileSystem.Basic
import Mathlib.Data.List.Basic

/-!
# What stands after a change

A change puts one entry where no directory stood. So every path that led somewhere leads there
still, a file that was written holds what was written, and the files at other places are as they
were. A path without `..` leads down through its names.

## Main results

* `FileSystem.resolve_put`: a path that led somewhere leads there after a change
* `FileSystem.exists_of_makeDirectory`, `FileSystem.exists_of_writeFile`: the change that is made
* `FileSystem.readFile_writeFile`: a file that was written holds what was written
* `FileSystem.fileAt?_makeDirectory`, `FileSystem.fileAt?_writeFile`: which files are as they were
-/

namespace PagePartials

/-- Whether the path starts from here and never leads back to a directory above. -/
structure Path.IsPlain (p : Path) : Prop where
  relative : p.anchor = .relative
  up_notMem : Path.up ∉ p.names

namespace FileSystem

variable {fs fs' : FileSystem} {p q : Path} {k l : Location} {e : Entry} {name : Text}
  {names : List Text} {bytes : Bytes}

/-! ## Entries -/

theorem isPrefixOf_here (hl : fs.find? l ≠ some .directory) : l.isPrefixOf fs.here = false := by
  rw [Bool.eq_false_iff]
  intro h
  simp [find?, h] at hl

theorem find?_put (hl : fs.find? l ≠ some .directory) (k : Location) :
    (fs.put l e).find? k = if k = l then some e else fs.find? k := by
  split
  next h => rw [h, find?_put_self e (isPrefixOf_here hl)]
  next h => exact find?_put_of_ne e h

theorem find?_put_of_directory (hl : fs.find? l ≠ some .directory)
    (hk : fs.find? k = some .directory) : (fs.put l e).find? k = some .directory := by
  rw [find?_put hl, if_neg (by rintro rfl; exact hl hk), hk]

theorem isSome_find?_put (hl : fs.find? l ≠ some .directory) (hk : (fs.find? k).isSome) :
    ((fs.put l e).find? k).isSome := by
  rw [find?_put hl]
  split
  · rfl
  · exact hk

/-! ## Paths -/

theorem bind_eq_ok_iff {ε α β : Type} {x : Except ε α} {f : α → Except ε β} {b : β} :
    (x >>= f) = .ok b ↔ ∃ a, x = .ok a ∧ f a = .ok b := by
  cases x <;> simp [Bind.bind, Except.bind]

theorem child_eq_ok_iff : fs.child l name = .ok k ↔ fs.find? l = some .directory ∧
    (name = Path.up ∧ k = l.dropLast ∨ name ≠ Path.up ∧
      (Utf8.encode name).length ≤ longestName ∧ (fs.find? (l ++ [name])).isSome ∧
      k = l ++ [name]) := by
  unfold child
  split
  next h => simp [h]
  next h =>
    rw [not_not] at h
    split
    next hu => simpa [h, hu] using eq_comm
    next hu =>
      split
      next hn =>
        have hlen : ¬ (Utf8.encode name).length ≤ longestName := Nat.not_le.mpr hn
        simp [hu, hlen]
      next hn =>
        have hlen : (Utf8.encode name).length ≤ longestName := Nat.not_lt.mp hn
        split
        next hs => simpa [h, hu, hlen, hs] using eq_comm
        next hs => simp [hs, hu]

theorem child_eq_notFound (h : fs.child l name = .error .notFound) :
    fs.find? l = some .directory ∧ name ≠ Path.up ∧ (Utf8.encode name).length ≤ longestName ∧
      fs.find? (l ++ [name]) = none := by
  unfold child at h
  split at h
  next => simp at h
  next hd =>
    split at h
    next => simp at h
    next hu =>
      split at h
      next => simp at h
      next hn =>
        split at h
        next => simp at h
        next hs => exact ⟨not_not.mp hd, hu, Nat.not_lt.mp hn, by simpa using hs⟩

theorem child_put (hl : fs.find? l ≠ some .directory) {j : Location}
    (h : fs.child j name = .ok k) : (fs.put l e).child j name = .ok k := by
  rw [child_eq_ok_iff] at h ⊢
  obtain ⟨hd, h⟩ := h
  refine ⟨find?_put_of_directory hl hd, ?_⟩
  rcases h with h | ⟨hu, hn, hs, hk⟩
  · exact .inl h
  · exact .inr ⟨hu, hn, isSome_find?_put hl hs, hk⟩

theorem follow_cons_eq_ok_iff : fs.follow l (name :: names) = .ok k ↔
    ∃ j, fs.child l name = .ok j ∧ fs.follow j names = .ok k := by
  rw [follow]
  exact bind_eq_ok_iff

theorem follow_concat_eq_ok_iff : fs.follow l (names ++ [name]) = .ok k ↔
    ∃ j, fs.follow l names = .ok j ∧ fs.child j name = .ok k := by
  induction names generalizing l with
  | nil =>
    rw [List.nil_append, follow_cons_eq_ok_iff]
    simp [follow]
  | cons n ns ih =>
    simp only [List.cons_append, follow_cons_eq_ok_iff, ih]
    constructor
    · rintro ⟨j, hj, i, hi, hk⟩
      exact ⟨i, ⟨j, hj, hi⟩, hk⟩
    · rintro ⟨i, ⟨j, hj, hi⟩, hk⟩
      exact ⟨j, hj, i, hi, hk⟩

theorem follow_put (hl : fs.find? l ≠ some .directory) {j : Location}
    (h : fs.follow j names = .ok k) : (fs.put l e).follow j names = .ok k := by
  induction names generalizing j with
  | nil => exact h
  | cons n ns ih =>
    rw [follow_cons_eq_ok_iff] at h ⊢
    obtain ⟨i, hi, hk⟩ := h
    exact ⟨i, child_put hl hi, ih hk⟩

theorem resolve_eq_ok_iff : fs.resolve p = .ok l ↔
    isTooLong p = false ∧ fs.follow (fs.start p) p.names = .ok l := by
  unfold resolve
  split
  next h => simp [h]
  next h => simp [h]

/-- A path that led somewhere leads there after a change. -/
theorem resolve_put (hl : fs.find? l ≠ some .directory) (h : fs.resolve p = .ok k) :
    (fs.put l e).resolve p = .ok k := by
  rw [resolve_eq_ok_iff] at h ⊢
  exact ⟨h.1, follow_put hl h.2⟩

theorem follow_of_up_notMem (hu : Path.up ∉ names) (h : fs.follow l names = .ok k) :
    k = l ++ names := by
  induction names generalizing l with
  | nil =>
    rw [follow] at h
    simpa using (Except.ok.inj h).symm
  | cons n ns ih =>
    rw [List.mem_cons, not_or] at hu
    obtain ⟨j, hj, hk⟩ := follow_cons_eq_ok_iff.mp h
    obtain ⟨-, ⟨rfl, -⟩ | ⟨-, -, -, rfl⟩⟩ := child_eq_ok_iff.mp hj
    · exact absurd rfl hu.1
    · simpa using ih hu.2 hk

/-- A path that never leads back leads down through its names. -/
theorem eq_start_append_of_resolve (hu : Path.up ∉ p.names) (h : fs.resolve p = .ok l) :
    l = fs.start p ++ p.names :=
  follow_of_up_notMem hu (resolve_eq_ok_iff.mp h).2

/-- A plain path leads down through its names. -/
theorem eq_of_resolve (hp : p.IsPlain) (h : fs.resolve p = .ok l) : l = fs.here ++ p.names := by
  simpa [start, hp.relative] using eq_start_append_of_resolve hp.up_notMem h

/-! ## Changes -/

theorem readFile_eq_ok_iff : fs.readFile p = .ok bytes ↔
    ∃ l, fs.resolve p = .ok l ∧ fs.find? l = some (.file bytes) := by
  unfold readFile
  rw [bind_eq_ok_iff]
  constructor
  · rintro ⟨l, hl, hb⟩
    refine ⟨l, hl, ?_⟩
    split at hb
    next b hf => rw [hf, Except.ok.inj hb]
    next => simp at hb
    next => simp at hb
  · rintro ⟨l, hl, hf⟩
    exact ⟨l, hl, by rw [hf]⟩

/-- A path whose end is taken leads there. -/
theorem resolve_of_target_taken (h : fs.target p = .ok (.taken l)) : fs.resolve p = .ok l := by
  unfold target at h
  split at h
  next => simp at h
  next hlong =>
    refine resolve_eq_ok_iff.mpr ⟨by simpa using hlong, ?_⟩
    split at h
    next hn =>
      rw [List.getLast?_eq_none_iff] at hn
      rw [hn, ← Target.taken.inj (Except.ok.inj h)]
      rfl
    next name hn =>
      obtain ⟨j, hj, h⟩ := bind_eq_ok_iff.mp h
      rw [← List.dropLast_append_getLast? name hn]
      refine follow_concat_eq_ok_iff.mpr ⟨j, hj, ?_⟩
      split at h
      next k hk => rw [hk, Target.taken.inj (Except.ok.inj h)]
      next => simp at h
      next => simp at h

/-- Where the end of a path is free nothing stands, and the path leads to whatever is put there. -/
theorem resolve_of_target_free (h : fs.target p = .ok (.free l)) :
    fs.find? l = none ∧ ∀ e, (fs.put l e).resolve p = .ok l := by
  unfold target at h
  split at h
  next => simp at h
  next hlong =>
    split at h
    next => simp at h
    next name hn =>
      obtain ⟨j, hj, h⟩ := bind_eq_ok_iff.mp h
      split at h
      next => simp at h
      next hc =>
        obtain rfl := Target.free.inj (Except.ok.inj h)
        -- The directory is there, and only the last name in it was missing.
        obtain ⟨hdir, hup, hlen, hnone⟩ := child_eq_notFound hc
        have hd : fs.find? (j ++ [name]) ≠ some .directory := by simp [hnone]
        refine ⟨hnone, fun e => resolve_eq_ok_iff.mpr ⟨by simpa using hlong, ?_⟩⟩
        rw [← List.dropLast_append_getLast? name hn]
        refine follow_concat_eq_ok_iff.mpr ⟨j, follow_put hd hj, child_eq_ok_iff.mpr ?_⟩
        refine ⟨find?_put_of_directory hd hdir, .inr ⟨hup, hlen, ?_, rfl⟩⟩
        simp [find?_put hd]
      next => simp at h

/-- Making a directory puts it at a free place, and its path leads there. -/
theorem exists_of_makeDirectory (h : fs.makeDirectory p = .ok fs') :
    ∃ l, fs.find? l = none ∧ fs' = fs.put l .directory ∧ fs'.resolve p = .ok l := by
  obtain ⟨t, ht, h⟩ := bind_eq_ok_iff.mp h
  cases t with
  | taken l => simp at h
  | free l =>
    obtain rfl := Except.ok.inj h
    obtain ⟨hnone, hr⟩ := resolve_of_target_free ht
    exact ⟨l, hnone, rfl, hr _⟩

/-- Writing a file puts it where no directory stands, and its path leads there. -/
theorem exists_of_writeFile (h : fs.writeFile p bytes = .ok fs') :
    ∃ l, fs.find? l ≠ some .directory ∧ fs' = fs.put l (.file bytes) ∧ fs'.resolve p = .ok l := by
  obtain ⟨t, ht, h⟩ := bind_eq_ok_iff.mp h
  cases t with
  | taken l =>
    simp only at h
    split at h
    next => simp at h
    next hd =>
      obtain rfl := Except.ok.inj h
      exact ⟨l, hd, rfl, resolve_put hd (resolve_of_target_taken ht)⟩
  | free l =>
    obtain rfl := Except.ok.inj h
    obtain ⟨hnone, hr⟩ := resolve_of_target_free ht
    exact ⟨l, by simp [hnone], rfl, hr _⟩

/-- A file that was written holds what was written. -/
theorem readFile_writeFile (h : fs.writeFile p bytes = .ok fs') : fs'.readFile p = .ok bytes := by
  obtain ⟨l, hl, rfl, hr⟩ := exists_of_writeFile h
  exact readFile_eq_ok_iff.mpr ⟨l, hr, by simp [find?_put hl]⟩

/-! ## Files and where they stand -/

/-- The bytes of the file at a location, if one stands there. -/
def fileAt? (fs : FileSystem) (l : Location) : Option Bytes :=
  match fs.find? l with
  | some (.file bytes) => some bytes
  | _ => none

theorem fileAt?_eq_some_iff : fs.fileAt? l = some bytes ↔ fs.find? l = some (.file bytes) := by
  unfold fileAt?
  split
  next b hb => simp [hb]
  next hno => exact ⟨nofun, fun h => absurd h (hno bytes)⟩

/-- Making a directory leaves the file at each location, and where paths start. -/
theorem fileAt?_makeDirectory (h : fs.makeDirectory q = .ok fs') (l : Location) :
    fs'.fileAt? l = fs.fileAt? l ∧ fs'.here = fs.here := by
  obtain ⟨k, hk, rfl, -⟩ := exists_of_makeDirectory h
  refine ⟨?_, rfl⟩
  rw [fileAt?, fileAt?, find?_put (by simp [hk])]
  split_ifs with hlk
  · rw [hlk, hk]
  · rfl

/-- Writing a file, to a path that never leads back, leaves the file at each other location, and
where paths start. -/
theorem fileAt?_writeFile (hq : Path.up ∉ q.names) (h : fs.writeFile q bytes = .ok fs')
    (hl : l ≠ fs.start q ++ q.names) : fs'.fileAt? l = fs.fileAt? l ∧ fs'.here = fs.here := by
  obtain ⟨k, hk, rfl, hr⟩ := exists_of_writeFile h
  have hkl : l ≠ k := by
    rw [eq_start_append_of_resolve hq hr]
    exact hl
  exact ⟨by rw [fileAt?, fileAt?, find?_put hk, if_neg hkl], rfl⟩

end FileSystem

end PagePartials
