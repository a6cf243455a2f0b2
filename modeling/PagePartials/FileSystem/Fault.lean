import PagePartials.Path
import PagePartials.Text.Quoted

/-!
# Faults

Why a file or a directory cannot be read, made or written, and the path that the trouble was met
with.
-/

namespace PagePartials

/-- Why something cannot be done to a file or a directory. -/
inductive Cause where
  | notFound
  | alreadyThere
  | notDirectory
  | isDirectory
  | nameTooLong
  /-- Any other cause, with the number and the text that the system gives for it. -/
  | other (number : Nat) (text : Text)
  deriving DecidableEq, Repr

namespace Cause

/-- The number of a cause. -/
def number : Cause → Nat
  | notFound => 2
  | alreadyThere => 17
  | notDirectory => 20
  | isDirectory => 21
  | nameTooLong => 36
  | other n _ => n

/-- The text of a cause. -/
def text : Cause → Text
  | notFound => "No such file or directory".toList
  | alreadyThere => "File exists".toList
  | notDirectory => "Not a directory".toList
  | isDirectory => "Is a directory".toList
  | nameTooLong => "File name too long".toList
  | other _ t => t

end Cause

/-- A cause and the path that it was met with. -/
structure Fault where
  cause : Cause
  path : Path
  deriving DecidableEq, Repr

/-- The fault as it is shown. -/
def Fault.message (f : Fault) : Text :=
  "[Errno ".toList ++ Nat.toDigits 10 f.cause.number ++ "] ".toList ++ f.cause.text ++
    ": ".toList ++ f.path.toText.quoted

end PagePartials
