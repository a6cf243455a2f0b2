import PagePartials.Command.Run

/-!
# The command on the disk

The command as a program: paths lead to files on the disk, settings come from the variables of the
process, and what the run says goes to its output and its error output. It knows no encodings but
those that are built in.
-/

namespace PagePartials

/-- The number and the text that the system gives for an error. -/
def errorParts : IO.Error → UInt32 × String
  | .alreadyExists _ n t | .invalidArgument _ n t | .permissionDenied _ n t
  | .resourceExhausted _ n t | .inappropriateType _ n t | .noSuchThing _ n t
  | .interrupted _ n t | .noFileOrDirectory _ n t => (n, t)
  | .otherError n t | .resourceBusy n t | .resourceVanished n t | .unsupportedOperation n t
  | .hardwareFault n t | .unsatisfiedConstraints n t | .illegalOperation n t
  | .protocolError n t | .timeExpired n t => (n, t)
  | .unexpectedEof => (0, "end of file")
  | .userError t => (0, t)

/-- The cause of a fault on the disk. Some calls give the number of an error with a minus sign. -/
def Cause.ofError (e : IO.Error) : Cause :=
  let (code, text) := errorParts e
  let number := min code.toNat (0 - code).toNat
  let known := [notFound, alreadyThere, notDirectory, isDirectory, nameTooLong]
  (known.find? fun c => c.number == number).getD (.other number text.toList)

/-- What came of an action on the disk with a path. -/
def onDisk {α : Type} (p : Path) (act : String → IO α) : IO (Except Fault α) := do
  match ← (act (String.ofList p.toText)).toBaseIO with
  | .ok a => return .ok a
  | .error e => return .error ⟨.ofError e, p⟩

instance : Files IO where
  read p := onDisk p fun s => return (← IO.FS.readBinFile s).toList
  makeDirectory p := onDisk p fun s => IO.FS.createDir s
  isDirectory p := (System.mkFilePath [String.ofList p.toText]).isDir
  write p bytes := onDisk p fun s => IO.FS.writeBinFile s ⟨bytes.toArray⟩

/-- The names of the variables that a run depends on. -/
def variableNames : List String :=
  ["HTMLPARTIALS_PARTIALS_DIR", "HTMLPARTIALS_INDEX_FILENAME", "HTMLPARTIALS_ENCODING",
    "HTMLPARTIALS_LOG_LEVEL", "HOME"]

/-- The variables of the process that a run depends on. -/
def currentEnvironment : IO Environment :=
  variableNames.filterMapM fun name => do
    return (← IO.getEnv name).map fun value => (name.toList, value.toList)

end PagePartials

open PagePartials in
/-- Run the command with the arguments of the process. -/
def main (args : List String) : IO UInt32 := do
  let outcome ← Command.run .none (← currentEnvironment) (args.map String.toList)
  IO.print (String.ofList outcome.output)
  IO.eprint (String.ofList outcome.errors)
  match outcome.ending with
  | .exited status => return status.toUInt32
  | .brokenOff failure =>
    IO.eprintln (String.ofList failure.message)
    return 1
