import PagePartials.Extraction.Basic
import PagePartials.Failure
import PagePartials.FileSystem.Access

/-!
# Writing an extraction

A page is read from a file, split, and written out: each partial below the directory of partials,
the index last. Writing stops at the first file that cannot be written; what was written before
stays, and so do the notices about it.

## Main definitions

* `Task m`: a program that may fail and gives notices on its way
* `Task.readText`, `Task.writeText`: pages from files and texts to files
* `Options`: where the output goes, and the encoding of all files
* `Extraction.write o e`: write `e` as `o` says; the result is the paths written
* `Extraction.ofFile o p`: read the page at `p`, split it and write it out
-/

namespace PagePartials

/-- A program that may fail and gives notices on its way. -/
abbrev Task (m : Type → Type) := ExceptT Failure (StateT (List Notice) m)

namespace Task

variable {m : Type → Type} [Monad m]

/-- Give some notices. -/
def report (notices : List Notice) : Task m Unit := modify (· ++ notices)

/-- Refuse a path that holds the character zero. -/
def refuseNull (p : Path) : Task m Unit :=
  if p.toText.contains '\x00' then throw .nullInPath else pure ()

/-- Refuse an encoding whose name holds the character zero. -/
def refuseNullName (encoding : Encoding) : Task m Unit :=
  if encoding.name.contains '\x00' then throw .nullInEncoding else pure ()

variable [Files m]

/-- Read the text of a file. What the codec refuses without naming a place in it does not count as
a page that cannot be read. -/
def readText (p : Path) (encoding : Encoding) : Task m Text := do
  refuseNullName encoding
  refuseNull p
  match ← (Files.read p : m _) with
  | .error fault => throw (.unreadable p (.fault fault))
  | .ok bytes =>
    match encoding.codec with
    | .error reason => throw (.noCodec encoding.name reason)
    | .ok codec =>
      match codec.decode bytes with
      | .error (.undecodable e) => throw (.unreadable p (.undecodable e))
      | .error (.refused message) => throw (.refusedByCodec message)
      | .ok t => return t.unifyNewlines

/-- The bytes of a text in an encoding. -/
def bytesOf (t : Text) (encoding : Encoding) : Except Failure Bytes :=
  match encoding.codec with
  | .error reason => .error (.noCodec encoding.name reason)
  | .ok codec => (codec.encode t).mapError .ofEncodingError

/-- Write a text to a file, in a directory that is made if it is missing. The file is there before
the text is encoded, and stays, empty, where the text has no bytes. -/
def writeText (p : Path) (t : Text) (encoding : Encoding) : Task m Unit := do
  refuseNull p.parent
  if let .error fault ← (Files.makeParents p.parent : m _) then throw (.unwritable p fault)
  refuseNullName encoding
  refuseNull p
  match bytesOf t encoding with
  | .ok bytes =>
    if let .error fault ← (Files.write p bytes : m _) then throw (.unwritable p fault)
  | .error failure =>
    if let .error fault ← (Files.write p [] : m _) then throw (.unwritable p fault)
    throw failure

/-- Make a directory and those above it, as far as they are missing. -/
def makeDirectory (p : Path) : Task m Unit := do
  refuseNull p
  if let .error fault ← (Files.makeParents p : m _) then throw (.noDirectory p fault)

end Task

/-- Where the output goes, and the encoding of all files. -/
structure Options where
  partialsDirectory : Path
  indexPath : Path
  encoding : Encoding

namespace Options

/-- The output next to the page, in UTF-8. -/
def standard : Options where
  partialsDirectory := .ofText "partials".toList
  indexPath := .ofText "new_index.html".toList
  encoding := .builtIn "utf-8".toList

/-- Where a partial is written. -/
def target (o : Options) (p : Partial) : Path := o.partialsDirectory / .ofText p.relativePath

end Options

namespace Extraction

variable {m : Type → Type} [Monad m] [Files m]

/-- Write partials; the result is the paths written. -/
def writePartials (o : Options) : List Partial → Task m (List Path)
  | [] => return []
  | p :: ps => do
    Task.writeText (o.target p) p.content o.encoding
    Task.report [.wrotePartial (o.target p) p.fullPath]
    return o.target p :: (← writePartials o ps)

/-- Write an extraction; the result is the paths written, the index last. -/
def write (o : Options) (e : Extraction) : Task m (List Path) := do
  Task.makeDirectory o.partialsDirectory
  let written ← writePartials o e.partials
  Task.writeText o.indexPath e.indexContent o.encoding
  Task.report [.wroteIndex o.indexPath]
  return written ++ [o.indexPath]

/-- Split the page with the given text, giving the notices that come up. -/
def ofPage (t : Text) (source : Option Text) : Task m Extraction := do
  let (notices, extraction) := ofText t source
  Task.report notices
  match extraction with
  | .ok e => return e
  | .error issues => throw (.invalid issues)

/-- Read the page in a file, split it, and write it out. -/
def ofFile (o : Options) (input : Path) : Task m Extraction := do
  let t ← Task.readText input o.encoding
  let e ← ofPage t (some input.name)
  let _ ← write o e
  return e

end Extraction

end PagePartials
