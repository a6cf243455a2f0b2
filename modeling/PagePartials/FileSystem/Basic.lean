import PagePartials.Encoding.Utf8
import PagePartials.FileSystem.Fault

/-!
# File systems

Directories and files, and a directory that relative paths start from. A path is followed name by
name: what it goes through has to be a directory, `..` leads back to the directory above, and the
last name may be missing only where something is made or written.

## Main definitions

* `Location`: the names from the top of the file system down to a file or a directory
* `FileSystem`: what stands at which location, and where relative paths start
* `FileSystem.resolve fs p`: the location that path `p` leads to
* `FileSystem.readFile`, `FileSystem.makeDirectory`, `FileSystem.writeFile`: what can be done

## Main results

* `FileSystem.find?_put_self`, `FileSystem.find?_put_of_ne`: what stands where after a change
-/

namespace PagePartials

/-- The names from the top of the file system down to a file or a directory. -/
abbrev Location := List Text

/-- What stands at a location. -/
inductive Entry where
  | directory
  | file (bytes : Bytes)
  deriving DecidableEq, Repr

/-- What stands where, and the location that relative paths start from. That location and those
above it hold directories without being listed. -/
structure FileSystem where
  here : Location
  entries : List (Location × Entry)
  deriving DecidableEq, Repr

namespace FileSystem

/-- The file system that holds nothing but the way to the given location. -/
def emptyAt (here : Location) : FileSystem := ⟨here, []⟩

/-- What stands at a location. -/
def find? (fs : FileSystem) (l : Location) : Option Entry :=
  if l.isPrefixOf fs.here then some .directory else fs.entries.lookup l

/-- The file system with an entry put at a location, in place of what was there. -/
def put (fs : FileSystem) (l : Location) (e : Entry) : FileSystem :=
  { fs with entries := (l, e) :: fs.entries.filter fun p => p.1 != l }

theorem find?_put_self {fs : FileSystem} {l : Location} (e : Entry)
    (h : l.isPrefixOf fs.here = false) : (fs.put l e).find? l = some e := by
  simp [find?, put, h]

theorem lookup_filter_ne {l k : Location} (h : k ≠ l) (es : List (Location × Entry)) :
    (es.filter fun p => p.1 != l).lookup k = es.lookup k := by
  induction es with
  | nil => rfl
  | cons p es ih =>
    obtain ⟨j, e⟩ := p
    by_cases hj : j = l
    · have hk : (k == j) = false := by simpa [hj] using h
      simp [hj, ih, List.lookup_cons, hj ▸ hk]
    · simp [hj, List.lookup_cons, ih]

theorem find?_put_of_ne {fs : FileSystem} {l k : Location} (e : Entry) (h : k ≠ l) :
    (fs.put l e).find? k = fs.find? k := by
  have hk : (k == l) = false := by simpa using h
  simp [find?, put, List.lookup_cons, hk, lookup_filter_ne h]

/-! ## Following paths -/

/-- The longest name that a directory can hold, in bytes. -/
def longestName : Nat := 255

/-- The longest path that can be followed, in bytes. -/
def longestPath : Nat := 4095

/-- The location of a name within a location. -/
def child (fs : FileSystem) (l : Location) (name : Text) : Except Cause Location :=
  if fs.find? l ≠ some .directory then .error .notDirectory
  else if name = Path.up then .ok l.dropLast
  else if longestName < (Utf8.encode name).length then .error .nameTooLong
  else if (fs.find? (l ++ [name])).isSome then .ok (l ++ [name])
  else .error .notFound

/-- The location that names lead to from a location. -/
def follow (fs : FileSystem) : Location → List Text → Except Cause Location
  | l, [] => .ok l
  | l, name :: names => do fs.follow (← fs.child l name) names

/-- Where a path starts. -/
def start (fs : FileSystem) (p : Path) : Location :=
  if p.anchor = .relative then fs.here else []

/-- Whether a path is too long to be followed. -/
def isTooLong (p : Path) : Bool := longestPath < (Utf8.encode p.toText).length

/-- The location that a path leads to. -/
def resolve (fs : FileSystem) (p : Path) : Except Cause Location :=
  if isTooLong p then .error .nameTooLong else fs.follow (fs.start p) p.names

/-- What a path ends at: the location of what stands there, or the free location where something
can be made. -/
inductive Target where
  | taken (l : Location)
  | free (l : Location)
  deriving DecidableEq, Repr

/-- What a path ends at. -/
def target (fs : FileSystem) (p : Path) : Except Cause Target :=
  if isTooLong p then .error .nameTooLong
  else match p.names.getLast? with
    | none => .ok (.taken (fs.start p))
    | some name => do
      let l ← fs.follow (fs.start p) p.names.dropLast
      match fs.child l name with
      | .ok k => .ok (.taken k)
      | .error .notFound => .ok (.free (l ++ [name]))
      | .error c => .error c

/-! ## Reading and changing -/

/-- The bytes of a file. -/
def readFile (fs : FileSystem) (p : Path) : Except Cause Bytes := do
  match fs.find? (← fs.resolve p) with
  | some (.file bytes) => .ok bytes
  | some .directory => .error .isDirectory
  | none => .error .notFound

/-- Whether a path leads to a directory. -/
def isDirectory (fs : FileSystem) (p : Path) : Bool :=
  match fs.resolve p with
  | .ok l => fs.find? l == some .directory
  | .error _ => false

/-- The file system with a new directory. -/
def makeDirectory (fs : FileSystem) (p : Path) : Except Cause FileSystem := do
  match ← fs.target p with
  | .taken _ => .error .alreadyThere
  | .free l => .ok (fs.put l .directory)

/-- The file system with the given bytes in a file, new or not. -/
def writeFile (fs : FileSystem) (p : Path) (bytes : Bytes) : Except Cause FileSystem := do
  match ← fs.target p with
  | .taken l =>
    if fs.find? l = some .directory then .error .isDirectory else .ok (fs.put l (.file bytes))
  | .free l => .ok (fs.put l (.file bytes))

/-- What stands below the location that relative paths start from, with the path to it. -/
def below (fs : FileSystem) : List (Path × Entry) :=
  fs.entries.filterMap fun (l, e) =>
    if fs.here.isPrefixOf l then some (⟨.relative, l.drop fs.here.length⟩, e) else none

end FileSystem

end PagePartials
