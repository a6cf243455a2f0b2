import PagePartials.Text.Basic
import PagePartials.Text.Digit
import PagePartials.Text.Quoted

/-!
# Command lines

The command takes one operand, the page, and one option, which asks for help. Words that begin with
a hyphen are options, except the hyphen alone, negative numbers, and words with a space in them; a
long option may be cut short. After the separator `--` every word is an operand.

Arguments are read from left to right. Help is given as soon as it is asked for. What nobody asked
for is collected, and refused at the end, after a missing page.

## Main definitions

* `Word.ofText w`: what the argument `w` is taken for before the separator
* `Request.ofArguments args`: what the arguments ask for
* `UsageError.message`, `usage`, `help`: what the command says about its arguments
-/

namespace PagePartials

/-! ## Words -/

/-- What an argument is taken for. -/
inductive Word where
  | operand
  /-- The option that asks for help, and the value that it was wrongly given. -/
  | help (value : Option Text)
  | unknown
  deriving DecidableEq, Repr

/-- Whether a text after a hyphen makes the whole a negative number. A newline at the end does not
count. -/
def isNumeral (t : Text) : Bool :=
  let t := if t.getLast? = some '\n' then t.dropLast else t
  match t.dropWhile isDecimalDigit with
  | [] => t != []
  | '.' :: fraction => fraction != [] && fraction.all isDecimalDigit
  | _ => false

namespace Word

/-- The long form of the option. -/
def longForm : Text := "--help".toList

/-- A long option with or without a value. -/
def ofLong (w : Text) : Option Word :=
  if (w.takeWhile (· != '=')).isPrefixOf longForm then
    some (.help (w.dropWhile (· != '=')).tail?)
  else none

/-- What follows the short form of the option: the same option over and over, or a value. -/
def ofShort : Text → Word
  | [] => .help none
  | ['='] => .help (some [])
  | rest =>
    let value := if rest.head? = some '=' then rest.drop 1 else rest
    match value.dropWhile (· == 'h') with
    | [] => .help none
    | v => .help (some v)

/-- What is left of the words that begin with a hyphen. -/
def ofOther (rest : Text) : Word :=
  if isNumeral rest || rest.contains ' ' then .operand else .unknown

/-- What an argument is taken for before the separator. -/
def ofText : Text → Word
  | '-' :: '-' :: rest => (ofLong ('-' :: '-' :: rest)).getD (ofOther ('-' :: rest))
  | '-' :: 'h' :: rest => ofShort rest
  | '-' :: c :: rest => ofOther (c :: rest)
  | _ => .operand

example : ofText "--he".toList = .help none := by decide +kernel
example : ofText "--help=x".toList = .help (some "x".toList) := by decide +kernel
example : ofText "-hhx".toList = .help (some "x".toList) := by decide +kernel
example : ofText "-.5".toList = .operand := by decide +kernel
example : ofText "-x y".toList = .operand := by decide +kernel
example : ofText "-x".toList = .unknown := by decide +kernel

end Word

/-! ## Requests -/

/-- What is wrong with the arguments. -/
inductive UsageError where
  | noInput
  | unrecognized (arguments : List Text)
  | valueForHelp (value : Text)
  deriving DecidableEq, Repr

/-- What is asked of the command: help, or to split the page at a path. -/
inductive Request where
  | help
  | split (input : Text)
  deriving DecidableEq, Repr

namespace Request

/-- The word after which every word is an operand. -/
def separator : Text := "--".toList

/-- The request for help, which takes no value. -/
def ofHelp : Option Text → Except UsageError Request
  | none => .ok .help
  | some value => .error (.valueForHelp value)

/-- The request to split a page, if there was nothing else. -/
def ofInput (input : Text) (extras : List Text) : Except UsageError Request :=
  if extras = [] then .ok (.split input) else .error (.unrecognized extras)

/-- The request once the page is known, given what nobody asked for so far. -/
def afterInput (input : Text) (extras : List Text) : List Text → Except UsageError Request
  | [] => ofInput input extras
  | w :: ws =>
    if w = separator then ofInput input (extras ++ w :: ws)
    else match Word.ofText w with
      | .help value => ofHelp value
      | _ => afterInput input (extras ++ [w]) ws

/-- The request while the page is not known. A separator directly before or after the page belongs
to it. -/
def beforeInput (extras : List Text) : List Text → Except UsageError Request
  | [] => .error .noInput
  | w :: ws =>
    if w = separator then
      match ws with
      | [] => .error .noInput
      | input :: rest => ofInput input (extras ++ rest)
    else match Word.ofText w with
      | .help value => ofHelp value
      | .unknown => beforeInput (extras ++ [w]) ws
      | .operand =>
        if ws.head? = some separator then ofInput w (extras ++ ws.tail)
        else afterInput w extras ws

/-- What the arguments ask for. -/
def ofArguments : List Text → Except UsageError Request := beforeInput []

end Request

/-! ## What the command says -/

/-- How the command is used, in one line. -/
def usage : Text := "usage: htmlpartials [-h] input\n".toList

/-- How the command is used, in full. -/
def help : Text :=
  usage ++
    "
Split a marker-annotated HTML document into partial templates.

positional arguments:
  input       The [index].html file to split

options:
  -h, --help  show this help message and exit
".toList

namespace UsageError

/-- The error in words. -/
def text : UsageError → Text
  | noInput => "the following arguments are required: input".toList
  | unrecognized arguments => "unrecognized arguments: ".toList ++ [' '].intercalate arguments
  | valueForHelp value =>
    "argument -h/--help: ignored explicit argument ".toList ++ value.quoted

/-- The error as it is shown. -/
def message (e : UsageError) : Text :=
  usage ++ "htmlpartials: error: ".toList ++ e.text ++ ['\n']

end UsageError

end PagePartials
