import PagePartials.Extraction.Basic

/-!
# Extractions as records

An extraction that is handed over from outside comes as a record of named fields and is checked
before it is used. All fields are looked at, so that every issue is reported, in the order of the
fields; fields of other names are passed over.

## Main definitions

* `Datum`: a value from outside
* `Partial.ofDatum d`, `Extraction.ofDatum d`: what `d` stands for, or what is wrong with it
-/

namespace PagePartials

/-- A value from outside. -/
inductive Datum where
  | null
  | bool (value : Bool)
  | number
  | text (value : Text)
  | list (items : List Datum)
  | record (fields : List (Text × Datum))
  deriving Inhabited

/-- The issues of a check that failed. -/
def issuesOf {α : Type} : Except (List Issue) α → List Issue
  | .ok _ => []
  | .error issues => issues

/-- A check of a field, seen from its record. -/
def inField {α : Type} (name : Text) : Except (List Issue) α → Except (List Issue) α :=
  Except.mapError (List.map (Issue.within [.field name]))

/-- The text of a field. -/
def textField (fields : List (Text × Datum)) (name : Text) : Except (List Issue) Text :=
  inField name <|
    match fields.lookup name with
    | none => .error [⟨.missing, []⟩]
    | some (.text t) => .ok t
    | some _ => .error [⟨.notText, []⟩]

/-- The text of a field that has to name a partial. -/
def partialNameField (fields : List (Text × Datum)) (name : Text) : Except (List Issue) Text :=
  match textField fields name with
  | .ok t => if isPartialName t then .ok t else inField name (.error [⟨.notPartialName, []⟩])
  | .error issues => .error issues

/-- The partial that a value stands for. -/
def Partial.ofDatum : Datum → Except (List Issue) Partial
  | .record fields =>
    let name := textField fields "name".toList
    let fullPath := textField fields "full_path".toList
    let partialName := partialNameField fields "partial_name".toList
    let relativePath := textField fields "relative_path".toList
    let content := textField fields "content".toList
    match name, fullPath, partialName, relativePath, content with
    | .ok n, .ok f, .ok p, .ok r, .ok c => .ok ⟨n, f, p, r, c⟩
    | _, _, _, _, _ =>
      .error (issuesOf name ++ issuesOf fullPath ++ issuesOf partialName ++
        issuesOf relativePath ++ issuesOf content)
  | _ => .error [⟨.notRecord, []⟩]

/-- The partials that the items of a list stand for, the first of them numbered `next`. -/
def Partial.ofItems (next : Nat) : List Datum → Except (List Issue) (List Partial)
  | [] => .ok []
  | d :: ds =>
    let first := (Partial.ofDatum d).mapError (List.map (Issue.within [.item next]))
    let others := ofItems (next + 1) ds
    match first, others with
    | .ok p, .ok ps => .ok (p :: ps)
    | _, _ => .error (issuesOf first ++ issuesOf others)

/-- The partials of a field; none if it is not there. -/
def partialsField (fields : List (Text × Datum)) (name : Text) :
    Except (List Issue) (List Partial) :=
  inField name <|
    match fields.lookup name with
    | none => .ok []
    | some (.list items) => Partial.ofItems 0 items
    | some _ => .error [⟨.notList, []⟩]

/-- The extraction that a value stands for. -/
def Extraction.ofDatum : Datum → Except (List Issue) Extraction
  | .record fields =>
    let summary := textField fields "summary".toList
    let sectionsTree := textField fields "sections_tree".toList
    let indexContent := textField fields "index_content".toList
    let partials := partialsField fields "partials".toList
    match summary, sectionsTree, indexContent, partials with
    | .ok s, .ok t, .ok i, .ok ps => .ok ⟨s, t, i, ps⟩
    | _, _, _, _ =>
      .error (issuesOf summary ++ issuesOf sectionsTree ++ issuesOf indexContent ++
        issuesOf partials)
  | _ => .error [⟨.notRecord, []⟩]

end PagePartials
