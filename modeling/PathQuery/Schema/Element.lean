import PathQuery.Value.Convert

/-! One node of the schema: its kind, its cardinality and the path of classes and predicates that
reaches its value from a root class. -/
namespace PathQuery

inductive Classification where
  | root
  | group
  | reference
  | field
  deriving DecidableEq, Repr

namespace Classification

def label : Classification → String
  | root => "root"
  | group => "group"
  | reference => "reference"
  | field => "field"

def ofWord? (word : String) : Option Classification :=
  if word = "root" || word = "model" then some root
  else if word = "group" then some group
  else if word = "reference" || word = "entity_reference" || word = "ref" then some reference
  else if word = "field" then some field
  else none

def ofValue (value : Value) : Except Fault Classification :=
  let word := Value.folded (if value.holds then value.bare else "field")
  match ofWord? word with
  | some c => .ok c
  | none => refuse (.unknownClassification word)

end Classification

def evens {α : Type} : List α → List α
  | [] => []
  | [a] => [a]
  | a :: _ :: rest => a :: evens rest

def odds {α : Type} (items : List α) : List α := evens (items.drop 1)

def splitInverse (token : String) : String × Bool :=
  match token.toList with
  | '^' :: rest => (String.ofList rest,true)
  | _ => (token,false)

def cleanTokens (items : List Value) : List String :=
  items.filterMap fun item => match item with
    | .text s => if Text.allBlank s.toList then none else some (Text.strip s)
    | _ => none

def cleanPath : Value → Except Fault (List String)
  | .null => .ok []
  | .text _ => .ok []
  | value => do .ok (cleanTokens (← value.toItems))

structure PathElement where
  id : String
  typeIri : String
  multiple : Bool
  classification : Classification
  name : String
  parent : Option String
  path : List String
  deriving DecidableEq, Repr

namespace PathElement

def classes (e : PathElement) : List String := evens e.path

def predicates (e : PathElement) : List String := odds e.path

def isReference (e : PathElement) : Bool := decide (e.classification = .reference)

def displayName (e : PathElement) : String := if e.name = "" then e.id else e.name

def toValue (e : PathElement) : Value :=
  .mapping
    [("id",.text e.id),("type",.text e.typeIri),("multiple",.flag e.multiple),
      ("classification",.text e.classification.label),("name",.text e.name),
      ("parent",Value.ofOption .text e.parent),("path",Value.texts e.path)]

def impliedClassification (fields : List (String × Value)) : Value :=
  if ((Value.fieldOf "group_id" fields).getD (.text "")).label = "0" then .text "root"
  else if ((Value.fieldOf "is_group" fields).getD (.text "")).label = "1" then .text "group"
  else if Value.member fields "fieldtype" = .text "entity_reference" then .text "reference"
  else .null

def heldLabel (fields : List (String × Value)) (name : String) : String :=
  let value := Value.member fields name
  if value.holds then value.label else ""

def idOf (fields : List (String × Value)) (key : Option String) : String :=
  let given := Value.member fields "id"
  Text.strip (if given.holds then given.bare else key.getD "")

def eitherMember (fields : List (String × Value)) (first second : String) : Value :=
  match Value.fieldOf first fields with
  | some value => value
  | none => Value.member fields second

def ofValue (key : Option String) : Value → Except Fault PathElement
  | .mapping fields => do
      let id := idOf fields key
      if id = "" then refuse (.elementWithoutId (.mapping fields))
      let given := Value.member fields "classification"
      let kind := if given = .null then impliedClassification fields else given
      let many := Value.member fields "multiple"
      let multiple ← if many = .null
        then .ok (decide (((Value.fieldOf "cardinality" fields).getD (.text "")).label = "-1"))
        else many.toFlag "multiple"
      let classification ← Classification.ofValue kind
      let parent := match eitherMember fields "parent" "group_id" with
        | .null => none
        | value => some value.label
      let path ← cleanPath (eitherMember fields "path" "path_array")
      .ok
        { id := id, typeIri := heldLabel fields "type", multiple := multiple
          classification := classification, name := heldLabel fields "name", parent := parent
          path := path }
  | value => refuse (.elementNotMapping key value.kind)

end PathElement

end PathQuery
