import PagePartials.Text.Case

/-!
# Section names

The name of a section is made from the name its marker carries: lower case letters `a` to `z` and
digits are kept, everything between them becomes one underscore, and none is left at the ends.

A registry numbers the sections of a document that ask for the same name: the first one gets it as
it is, the second with `_2` after it, the third with `_3`, wherever they stand. It counts the
requests for each name by itself and does not look at the names it has given for others. So a name
comes up again where one that was given with a number is also asked for as it is.

## Main definitions

* `SectionName.normalize t`: the name made from the text `t`
* `SectionName.Registry`: the names asked for so far
* `SectionName.Registry.assign r t`: the next name for a marker called `t`
-/

namespace PagePartials

namespace SectionName

/-- What stands between the words of a name. -/
def separator : Char := '_'

/-- Whether a name keeps the character. -/
def isKept (c : Char) : Bool := ('a' ≤ c && c ≤ 'z') || ('0' ≤ c && c ≤ '9')

/-- The text with each run of characters that a name does not keep replaced by one separator. -/
def collapse : Text → Text
  | [] => []
  | c :: t =>
    if isKept c then c :: collapse t
    else match collapse t with
      | [] => [separator]
      | d :: u => if d = separator then d :: u else separator :: d :: u

/-- The text without the separators at its two ends. -/
def strip (t : Text) : Text :=
  ((t.dropWhile (· == separator)).reverse.dropWhile (· == separator)).reverse

/-- The name made from the text that a marker carries. -/
def normalize (t : Text) : Text := strip (collapse t.lower)

example : normalize "  Main Nav (top) ".toList = "main_nav_top".toList := by decide

/-! ## Numbering the requests for a name -/

/-- The names asked for so far: the normalized name of each request, the latest first. -/
structure Registry where
  requests : List Text
  deriving DecidableEq, Repr

/-- The name of the `k`-th section that asks for a base name. -/
def numbered (base : Text) (k : Nat) : Text :=
  if k ≤ 1 then base else base ++ separator :: Nat.toDigits 10 k

namespace Registry

/-- The registry that has given no name. -/
def empty : Registry := ⟨[]⟩

/-- How often the normalized name was asked for. -/
def count (r : Registry) (base : Text) : Nat := r.requests.count base

/-- The name for a marker that carries the given text, and the registry after it is given. -/
def assign (r : Registry) (t : Text) : Text × Registry :=
  let base := normalize t
  (numbered base (r.count base + 1), ⟨base :: r.requests⟩)

/-- The registry with all requests forgotten. -/
def reset (_ : Registry) : Registry := empty

/-- The names for the given texts in turn. -/
def assignAll (r : Registry) : List Text → List Text
  | [] => []
  | t :: ts => (r.assign t).1 :: assignAll (r.assign t).2 ts

end Registry

end SectionName

end PagePartials
