import PagePartials.FileSystem.Basic

/-!
# Access to files

What a program that reads and writes files asks of the place where it runs. A `FileSystem` value
answers such a program, and so can the disk.

## Main definitions

* `Files m`: programs of type `m` can read and write files
* `Files.makeParents p`: make directory `p` and those above it, as far as they are missing
-/

namespace PagePartials

/-- Programs that can read and write files, and are told what stands in the way. -/
class Files (m : Type → Type) where
  /-- Read the bytes of a file. -/
  read : Path → m (Except Fault Bytes)
  /-- Make a directory in one that is there. -/
  makeDirectory : Path → m (Except Fault Unit)
  /-- Ask whether a path leads to a directory. -/
  isDirectory : Path → m Bool
  /-- Write bytes to a file, which is made if it is not there. -/
  write : Path → Bytes → m (Except Fault Unit)

namespace FileSystem

/-- A change of the file system, undone where it cannot be made. -/
def attempt (p : Path) (change : FileSystem → Except Cause FileSystem) :
    StateM FileSystem (Except Fault Unit) := fun fs =>
  match change fs with
  | .ok fs' => (.ok (), fs')
  | .error c => (.error ⟨c, p⟩, fs)

instance : Files (StateM FileSystem) where
  read p := fun fs => ((fs.readFile p).mapError (⟨·, p⟩), fs)
  makeDirectory p := attempt p fun fs => fs.makeDirectory p
  isDirectory p := fun fs => (fs.isDirectory p, fs)
  write p bytes := attempt p fun fs => fs.writeFile p bytes

end FileSystem

namespace Files

variable {m : Type → Type} [Monad m] [Files m]

/-- Make a directory, or leave the one that is there. -/
def ensureDirectory (p : Path) : m (Except Fault Unit) := do
  match ← makeDirectory p with
  | .ok () => return .ok ()
  | .error fault =>
    if fault.cause = .notFound then return .error fault
    else if ← isDirectory p then return .ok ()
    else return .error fault

/-- Make a directory and those above it, as far as they are missing. The directory itself is tried
first; those above it are made only if it turns out to stand nowhere. -/
def makeParents (p : Path) : m (Except Fault Unit) := do
  match ← ensureDirectory p with
  | .ok () => return .ok ()
  | .error fault =>
    if h : fault.cause = .notFound ∧ p.names ≠ [] then
      have := Path.length_names_parent_lt h.2
      match ← makeParents p.parent with
      | .error fault => return .error fault
      | .ok () => ensureDirectory p
    else return .error fault
  termination_by p.names.length

end Files

end PagePartials
