import PagePartials.Extraction.Write
import PagePartials.Text.Case

/-!
# Settings

What the environment says about a run: where the output goes, the encoding of all files, and which
log records are shown. A variable that is not there leaves the standard in force. A path that
starts with `~` starts from the home directory. An encoding is given by its name.

## Main definitions

* `Environment`: the variables of a run
* `Path.fromHome? home p`: `p`, with the home directory in place of a first `~`
* `Level.ofName n`: the level that a setting calls `n`, unless the log calls something else so
* `Settings.ofEnvironment others env`: the settings in `env`, given what names of encodings stand
  for
-/

namespace PagePartials

/-- The variables of a run and their values. -/
abbrev Environment := List (Text × Text)

/-- The value of a variable. -/
def Environment.find? (env : Environment) (name : String) : Option Text := env.lookup name.toList

/-! ## Paths from home -/

/-- The home directory with the given text: slashes at the end do not count, and nothing but
slashes is the top of the file system. -/
def homeDirectory (home : Text) : Path :=
  match (home.reverse.dropWhile (· == '/')).reverse with
  | [] => ⟨.top, []⟩
  | t => .ofText t

/-- The path, with the home directory in place of a first name `~`. Other users' homes are not
known, and neither is one that is itself written with `~`. -/
def Path.fromHome? (home : Option Text) (p : Path) : Option Path :=
  match p.anchor, p.names with
  | .relative, ['~'] :: names =>
    match home with
    | none | some ('~' :: _) => none
    | some h => some (homeDirectory h / ⟨.relative, names⟩)
  | .relative, ('~' :: _) :: _ => none
  | _, _ => some p

example : (Path.ofText "./~/p".toList).fromHome? (some "h//".toList) =
    some (.ofText "h/p".toList) := by decide +kernel
example : (Path.ofText "a/~".toList).fromHome? none = some (.ofText "a/~".toList) := by
  decide +kernel

/-! ## Levels by name -/

namespace Level

/-- The levels by name. `NOTSET` asks for every record. -/
def named : List (String × Level) :=
  [("DEBUG", debug), ("INFO", info), ("WARNING", warning), ("WARN", warning), ("ERROR", error),
    ("CRITICAL", critical), ("FATAL", critical), ("NOTSET", debug)]

/-- The names that the log has for other things than levels. -/
def notNamed : List (String × NoLevel) :=
  [("BASIC_FORMAT", .recordForm), ("_STYLES", .formStyles)]

/-- The level of a name, in whatever case; a name that the log does not have stands for
warnings. -/
def ofName (name : Text) : Except NoLevel Level :=
  match notNamed.find? fun l => l.1.toList == name.upper with
  | some (_, reason) => .error reason
  | none =>
    match named.find? fun l => l.1.toList == name.upper with
    | some (_, level) => .ok level
    | none => .ok warning

example : ofName "Info".toList = .ok info := by rfl
example : ofName " debug".toList = .ok warning := by rfl
example : ofName "basic_format".toList = .error .recordForm := by rfl

end Level

/-! ## Settings -/

/-- What the environment says about a run: where the output goes, and the name of the least level
of the log records that are shown. -/
structure Settings where
  options : Options
  levelName : Text

namespace Settings

/-- The path in a variable, or the given one. -/
def path (env : Environment) (name : String) (standard : Path) : Except Failure Path :=
  match env.find? name with
  | none => .ok standard
  | some t =>
    match (Path.ofText t).fromHome? (env.find? "HOME") with
    | some p => .ok p
    | none => .error .noHome

/-- The settings in an environment, with others for the encodings that are not built in. -/
def ofEnvironment (others : Codecs) (env : Environment) : Except Failure Settings := do
  let standard := Options.standard
  let directory ← path env "HTMLPARTIALS_PARTIALS_DIR" standard.partialsDirectory
  let index ← path env "HTMLPARTIALS_INDEX_FILENAME" standard.indexPath
  let encoding :=
    ((env.find? "HTMLPARTIALS_ENCODING").map (.ofName others)).getD standard.encoding
  let levelName := (env.find? "HTMLPARTIALS_LOG_LEVEL").getD Level.warning.name
  return ⟨⟨directory, index, encoding⟩, levelName⟩

end Settings

end PagePartials
