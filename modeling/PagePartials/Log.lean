import PagePartials.Path
import PagePartials.Text.Quoted

/-!
# Log records

What a run has to report, as data. A record has a level, the part of the program that it comes
from, and a message; the three are joined by colons when it is shown.

## Main definitions

* `Level`: how grave a record is
* `Notice`: what a record reports
* `Notice.line n`: the record as it is shown
-/

namespace PagePartials

/-- How grave a record is. -/
inductive Level where
  | debug
  | info
  | warning
  | error
  | critical
  deriving DecidableEq, Repr

namespace Level

/-- The place of a level in the order of gravity. -/
def rank : Level → Nat
  | debug => 10
  | info => 20
  | warning => 30
  | error => 40
  | critical => 50

/-- The name of a level in a record. -/
def name : Level → Text
  | debug => "DEBUG".toList
  | info => "INFO".toList
  | warning => "WARNING".toList
  | error => "ERROR".toList
  | critical => "CRITICAL".toList

end Level

/-- What a record reports. -/
inductive Notice where
  /-- An end marker that does not name the open section. -/
  | strayEnd (name path : Text)
  /-- A section without an end marker. -/
  | unterminated (path : Text)
  /-- Lines that belong to no section. -/
  | discarded (count : Nat)
  /-- A section whose partial would be blank. -/
  | skippedEmpty (path : Text)
  /-- A partial on the disk. -/
  | wrotePartial (target : Path) (path : Text)
  /-- The index on the disk. -/
  | wroteIndex (target : Path)
  /-- The end of a run that could not go on. -/
  | failed (message : Text)
  deriving DecidableEq, Repr

namespace Notice

/-- How grave a notice is. -/
def level : Notice → Level
  | strayEnd .. | unterminated _ | discarded _ | skippedEmpty _ => .debug
  | wrotePartial .. | wroteIndex _ => .info
  | failed _ => .error

/-- The part of the program that a notice comes from. -/
def source : Notice → Text
  | strayEnd .. | unterminated _ | discarded _ => "htmlpartials.parser".toList
  | skippedEmpty _ => "htmlpartials.output_formatter".toList
  | wrotePartial .. | wroteIndex _ => "htmlpartials.extraction".toList
  | failed _ => "htmlpartials.cli".toList

/-- The message of a notice. -/
def message : Notice → Text
  | strayEnd name path =>
    "End marker ".toList ++ name.quoted ++ " does not match open section ".toList ++ path
  | unterminated path => "Section ".toList ++ path ++ " has no end marker".toList
  | discarded count =>
    "Discarded ".toList ++ Nat.toDigits 10 count ++ " line(s) outside any section".toList
  | skippedEmpty path => "Skipped empty section ".toList ++ path
  | wrotePartial target path =>
    "Wrote partial ".toList ++ target.toText ++ " (".toList ++ path ++ [')']
  | wroteIndex target => "Wrote index ".toList ++ target.toText
  | failed message => message

/-- The record as it is shown. -/
def line (n : Notice) : Text := n.level.name ++ ':' :: n.source ++ ':' :: n.message

end Notice

end PagePartials
