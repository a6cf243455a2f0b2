import PagePartials.Encoding.Named
import PagePartials.Extraction.Issue
import PagePartials.FileSystem.Fault

/-!
# Failures

Why a run cannot go on. The first three failures are what a user can expect and mend, a page that
cannot be read and output that cannot be written; the command reports them and ends. The others
end it at once.

## Main definitions

* `Unreadable`: why a page cannot be read
* `NoLevel`: names that the log has, but not for a level
* `Failure`: why a run cannot go on
* `Failure.ofEncodingError e`: the failure that a text without bytes is
* `Failure.message f`: the failure as it is shown
* `Failure.isReported f`: whether the command reports the failure itself
-/

namespace PagePartials

/-- Why a page cannot be read: there is no getting at its bytes, or they are no text. -/
inductive Unreadable where
  | fault (f : Fault)
  | undecodable (e : Undecodable)
  deriving DecidableEq, Repr

/-- The reason as it is shown. -/
def Unreadable.message : Unreadable → Text
  | fault f => f.message
  | undecodable e => e.message

/-- What a name stands for that the log knows, though not as a level's. -/
inductive NoLevel where
  /-- The form of a record. -/
  | recordForm
  /-- The styles that a form can be written in. -/
  | formStyles
  deriving DecidableEq, Repr

/-- Why the name cannot be taken for a level's, as it is shown. -/
def NoLevel.message : NoLevel → Text
  | recordForm => "Unknown level: '%(levelname)s:%(name)s:%(message)s'".toList
  | formStyles =>
    ("Level not an integer or a valid string: \x7b" ++
      "'%': (<class 'logging.PercentStyle'>, '%(levelname)s:%(name)s:%(message)s'), " ++
      "'\x7b': (<class 'logging.StrFormatStyle'>, " ++
      "'\x7blevelname\x7d:\x7bname\x7d:\x7bmessage\x7d'), " ++
      "'$': (<class 'logging.StringTemplateStyle'>, " ++
      "'$\x7blevelname\x7d:$\x7bname\x7d:$\x7bmessage\x7d')\x7d").toList

/-- Why a run cannot go on. -/
inductive Failure where
  /-- The page cannot be read. -/
  | unreadable (path : Path) (reason : Unreadable)
  /-- A file cannot be written. -/
  | unwritable (path : Path) (fault : Fault)
  /-- The directory of the partials cannot be made. -/
  | noDirectory (path : Path) (fault : Fault)
  /-- The name of an encoding stands for no codec. -/
  | noCodec (name : Text) (reason : NoCodec)
  /-- The name of an encoding holds the character zero. -/
  | nullInEncoding
  /-- The encoding has no bytes for a character to be written. -/
  | unencodable (e : Unencodable)
  /-- The codec refuses what was read or is to be written, without naming a place in it. -/
  | refusedByCodec (message : Text)
  /-- A path holds the character zero. -/
  | nullInPath
  /-- A path starts from a home directory that is not known. -/
  | noHome
  /-- A setting names no level, but something else of the log. -/
  | noLevel (reason : NoLevel)
  /-- A record is not what it should be. -/
  | invalid (issues : List Issue)
  deriving DecidableEq, Repr

namespace Failure

/-- The failure that it is when a codec gives no bytes for a text. -/
def ofEncodingError : EncodingError → Failure
  | .unencodable e => unencodable e
  | .refused message => refusedByCodec message

/-- The failure as it is shown. -/
def message : Failure → Text
  | unreadable path reason => "Cannot read ".toList ++ path.toText ++ ": ".toList ++ reason.message
  | unwritable path fault => "Cannot write ".toList ++ path.toText ++ ": ".toList ++ fault.message
  | noDirectory path fault =>
    "Cannot create directory ".toList ++ path.toText ++ ": ".toList ++ fault.message
  | noCodec name reason => reason.message name
  | nullInEncoding => "embedded null character".toList
  | unencodable e => e.message
  | refusedByCodec message => message
  | nullInPath => "embedded null byte".toList
  | noHome => "Could not determine home directory.".toList
  | noLevel reason => reason.message
  | invalid issues => "invalid record, issues: ".toList ++ Nat.toDigits 10 issues.length

/-- Whether the command reports the failure and ends in good order. -/
def isReported : Failure → Bool
  | unreadable .. | unwritable .. | noDirectory .. => true
  | _ => false

end Failure

end PagePartials
