import PagePartials.Command.Arguments
import PagePartials.Command.Settings

/-!
# The command

A run of the command: settings from the environment, a request from the arguments, and if a page is
to be split, the page read and its parts written. What was written is listed on the output; what
went wrong is told on the error output.

## Main definitions

* `Ending`: how a run ends
* `Outcome`: how a run ends and what it says
* `Command.run others env args`: the run with the given environment and arguments, given what names
  of encodings stand for
-/

namespace PagePartials

/-- How a run ends: with an exit status, or broken off by a failure that it does not report. -/
inductive Ending where
  | exited (status : Nat)
  | brokenOff (failure : Failure)
  deriving DecidableEq, Repr

/-- How a run ends and what it says. -/
structure Outcome where
  ending : Ending
  output : Text
  errors : Text
  deriving DecidableEq, Repr

/-- Texts, each on a line of its own. -/
def onLines (ts : List Text) : Text := ts.flatMap fun t => t ++ ['\n']

/-- The records that are shown when only those of a level and above are. -/
def shownNotices (level : Level) (notices : List Notice) : Text :=
  onLines ((notices.filter fun n => level.rank ≤ n.level.rank).map (·.line))

namespace Partial

/-- The line that tells of a partial. -/
def createdLine (p : Partial) : Text :=
  "Created partial: ".toList ++ p.partialName ++ " (full path: ".toList ++ p.fullPath ++ [')']

end Partial

/-- What is told of an extraction: a line for each partial, the listing, and the summary. -/
def Extraction.report (e : Extraction) : Text :=
  onLines (e.partials.map (·.createdLine) ++ [e.sectionsTree, e.summary])

namespace Outcome

/-- The outcome of splitting a page, from what came of it and the notices on the way. -/
def ofSplit (level : Level) : Except Failure Extraction × List Notice → Outcome
  | (.ok e, notices) => ⟨.exited 0, e.report, shownNotices level notices⟩
  | (.error f, notices) =>
    if f.isReported then
      ⟨.exited 1, [], shownNotices level (notices ++ [.failed f.message])⟩
    else ⟨.brokenOff f, [], shownNotices level notices⟩

/-- The outcome of a failure before anything was done. -/
def ofFailure (f : Failure) : Outcome := ⟨.brokenOff f, [], []⟩

/-- The outcome of arguments that cannot be understood. -/
def ofUsageError (e : UsageError) : Outcome := ⟨.exited 2, [], e.message⟩

/-- The outcome of a request for help. -/
def ofHelp : Outcome := ⟨.exited 0, help, []⟩

end Outcome

namespace Command

variable {m : Type → Type} [Monad m] [Files m]

/-- The run with the given environment and arguments, with others for the encodings that are not
built in. -/
def run (others : Codecs) (env : Environment) (args : List Text) : m Outcome :=
  match Settings.ofEnvironment others env with
  | .error f => return .ofFailure f
  | .ok settings =>
    match Request.ofArguments args with
    | .error e => return .ofUsageError e
    | .ok .help => return .ofHelp
    | .ok (.split input) =>
      match Level.ofName settings.levelName with
      | .error reason => return .ofFailure (.noLevel reason)
      | .ok level =>
        return .ofSplit level
          (← ((Extraction.ofFile settings.options (.ofText input)).run.run [] : m _))

end Command

end PagePartials
