import PagePartials.Text.Basic

/-!
# Issues

What can be wrong with a record of text fields, and where. Checking a record names every field
that is wrong, in the order of the fields.
-/

namespace PagePartials

/-- What is wrong with a field. -/
inductive Flaw where
  /-- The field is not there. -/
  | missing
  /-- A text was expected. -/
  | notText
  /-- A text that is no name of a partial. -/
  | notPartialName
  /-- A list was expected. -/
  | notList
  /-- A record was expected. -/
  | notRecord
  deriving DecidableEq, Repr

/-- One step from a record into it: a field, or an item of a list. -/
inductive Step where
  | field (name : Text)
  | item (index : Nat)
  deriving DecidableEq, Repr

/-- A flaw, and the way to where it is. -/
structure Issue where
  flaw : Flaw
  location : List Step
  deriving DecidableEq, Repr

/-- The same issue, seen from further outside. -/
def Issue.within (steps : List Step) (i : Issue) : Issue :=
  ⟨i.flaw, steps ++ i.location⟩

end PagePartials
