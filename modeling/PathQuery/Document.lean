import PathQuery.Options
import PathQuery.Selection.Reader
import PathQuery.Text.FileName
import PathQuery.Value.Reader

/-! A selection document: a path model, a selection and options in one file. Files are YAML; what of it is read, and what is
left out, is said where values are read. -/
namespace PathQuery

inductive FileEntry where
  | folder
  | nameless
  | text (content : String)
  deriving DecidableEq, Repr

structure SelectionDocument where
  model : PathModel
  selection : SelectionGraph
  options : QueryOptions
  explicit : List String
  deriving DecidableEq, Repr

namespace SelectionDocument

def sectionOf (fields : List (String × Value)) (name : String) : Value :=
  let value := Value.member fields name
  if value.holds then value else .mapping []

def optionsOf (fields : List (String × Value)) : Except Fault QueryOptions :=
  match sectionOf fields "options" with
  | .mapping options =>
      let namespaces := Value.member fields "namespaces"
      QueryOptions.ofFields
        (if namespaces.holds then Table.put "namespaces" namespaces options else options)
  | value => refuse (.optionsNotMapping value.kind)

def explicitOf (selection : SelectionGraph) : Value → Except Fault (List String)
  | .null => .ok selection.nodeIds
  | value => do .ok (((← value.toItems).map Value.label).filter selection.contains)

def explicitMember : Value → Value
  | .mapping fields => Value.member fields "explicit"
  | _ => .null

def ofValue : Value → Except Fault SelectionDocument
  | .mapping fields => do
      let model ← PathModel.ofValue (sectionOf fields "paths")
      let rawSelection := sectionOf fields "selection"
      let selection ← SelectionGraph.ofValue model rawSelection
      let options ← optionsOf fields
      let explicit ← explicitOf selection (explicitMember rawSelection)
      .ok ⟨model,selection,options,explicit⟩
  | value => refuse (.documentNotMapping value.kind)

def fileValue (content : String) : Except Fault Value :=
  if content = "" then .ok .null
  else match Value.readYaml? content.toList with
    | some value => .ok value
    | none => .error (if Value.endsQuoted false content.toList then .unclosed else .malformed)

def shownName (name : String) : String := String.ofList (Text.plainName name.toList)

def textOf (source : Source) (name : String) : Option FileEntry → Except Fault String
  | none => .error (.missing source (shownName name))
  | some .folder => .error .folder
  | some .nameless => .error .nameTooLong
  | some (.text content) => .ok content

def load (name : String) (entry : Option FileEntry) : Except Fault SelectionDocument := do
  match fileValue (← textOf .document name entry) with
  | .ok value => ofValue value
  | .error _ => refuse (.unreadable (shownName name))

def modelSection : Value → Value
  | .mapping fields => match Value.fieldOf "paths" fields with
    | some value => value
    | none => .mapping fields
  | value => value

def loadModel (name : String) (entry : Option FileEntry) : Except Fault PathModel := do
  let value := modelSection (← fileValue (← textOf .model name entry))
  PathModel.ofValue (if value.holds then value else .mapping [])

end SelectionDocument

end PathQuery
