import PagePartials.FileSystem.Access
import PagePartials.Proofs.FileSystem.Writing

/-!
# Making directories

A program that makes a directory and those above it changes the files only by making one directory
at a time. So whatever one such step preserves, files and what they hold among it, is preserved,
and that whether the program gets to its end or not.

## Main definitions

* `FileSystem.Preserves I x`: the program `x` preserves the property `I` of file systems

## Main results

* `FileSystem.preserves_makeParents`: what making one directory preserves is preserved
-/

namespace PagePartials

namespace FileSystem

variable {fs fs' : FileSystem} {p : Path}

theorem attempt_eq_ok_iff {change : FileSystem → Except Cause FileSystem} :
    attempt p change fs = (.ok (), fs') ↔ change fs = .ok fs' := by
  unfold attempt
  split
  next gs hc =>
    rw [hc]
    exact ⟨fun h => by rw [(Prod.mk.inj h).2], fun h => by rw [Except.ok.inj h]⟩
  next c hc =>
    rw [hc]
    exact ⟨fun h => absurd (Prod.mk.inj h).1 (by simp), fun h => absurd h (by simp)⟩

/-- Whether what holds of the files before holds of them after, however the program ends. -/
def Preserves {α : Type} (I : FileSystem → Prop) (x : StateM FileSystem α) : Prop :=
  ∀ fs, I fs → I (x fs).2

section

variable {α β : Type} {I : FileSystem → Prop}

theorem preserves_pure (a : α) : Preserves I (pure a) := fun _ h => h

theorem Preserves.bind {x : StateM FileSystem α} {f : α → StateM FileSystem β}
    (hx : Preserves I x) (hf : ∀ a, Preserves I (f a)) : Preserves I (x >>= f) :=
  fun fs h => hf (x fs).1 (x fs).2 (hx fs h)

theorem preserves_isDirectory (p : Path) :
    Preserves I (Files.isDirectory p : StateM FileSystem Bool) := fun _ h => h

theorem preserves_attempt {change : FileSystem → Except Cause FileSystem}
    (hI : ∀ gs gs', change gs = .ok gs' → I gs → I gs') : Preserves I (attempt p change) := by
  intro fs h
  unfold attempt
  split
  next gs hc => exact hI fs gs hc h
  next => exact h

variable (hI : ∀ q gs gs', gs.makeDirectory q = .ok gs' → I gs → I gs')

include hI

theorem preserves_makeDirectory (p : Path) :
    Preserves I (Files.makeDirectory p : StateM FileSystem _) :=
  preserves_attempt fun gs gs' => hI p gs gs'

theorem preserves_ensureDirectory (p : Path) :
    Preserves I (Files.ensureDirectory p : StateM FileSystem _) := by
  refine (preserves_makeDirectory hI p).bind fun r => ?_
  rcases r with fault | ⟨⟩
  · show Preserves I (if fault.cause = .notFound then _ else _)
    split
    · exact preserves_pure _
    · refine (preserves_isDirectory p).bind fun d => ?_
      cases d
      · exact preserves_pure _
      · exact preserves_pure _
  · exact preserves_pure _

/-- What making one directory preserves, making a directory and those above it preserves. -/
theorem preserves_makeParents (p : Path) :
    Preserves I (Files.makeParents p : StateM FileSystem _) := by
  -- By recursion on the path, as the program goes: every step makes one directory or none.
  rw [Files.makeParents]
  refine (preserves_ensureDirectory hI p).bind fun r => ?_
  rcases r with fault | ⟨⟩
  · simp only
    split
    next hne =>
      have := Path.length_names_parent_lt hne.2
      refine (preserves_makeParents p.parent).bind fun r => ?_
      rcases r with fault | ⟨⟩
      · exact preserves_pure _
      · exact preserves_ensureDirectory hI p
    next => exact preserves_pure _
  · exact preserves_pure _
  termination_by p.names.length

end

end FileSystem

end PagePartials
