import PathQuery.Schema.Element
import PathQuery.Sorting
import PathQuery.Table

/-! The schema as a table of elements by id, in the order in which ids first came up. -/
namespace PathQuery

structure PathModel where
  elements : Table String PathElement
  deriving DecidableEq, Repr

namespace PathModel

def ofList (elements : List PathElement) : PathModel :=
  -- Of two elements with one id the later is kept, in the place of the earlier.
  ⟨Table.ofList (elements.map fun e => (e.id,e))⟩

def toList (m : PathModel) : List PathElement := m.elements.values

def ids (m : PathModel) : List String := m.elements.keys

def contains (m : PathModel) (id : String) : Bool := m.elements.contains id

def get? (m : PathModel) (id : String) : Option PathElement := m.elements.find? (Text.strip id)

def lookup (m : PathModel) : Value → Except Fault (Option PathElement)
  | .null => .ok none
  | .text id => .ok (m.get? id)
  | value => .error (.notText value.kind)

def displayOrder (a b : PathElement) : Bool := pairBefore (a.displayName,a.id) (b.displayName,b.id)

def childrenOf (m : PathModel) (parent : Option String) : List PathElement :=
  sortBy displayOrder (m.toList.filter fun e => e.parent = parent)

def roots (m : PathModel) : List PathElement :=
  sortBy displayOrder (m.toList.filter fun e => e.classification = .root)

def bridgeOf (e : PathElement) : Option String := e.predicates.getLast?

def bridgeFor (m : PathModel) (reference : String) : Option String :=
  (m.get? reference).bind bridgeOf

def ofValue : Value → Except Fault PathModel
  | .mapping fields => do
      let elements ← fields.mapM fun (key,value) =>
        PathElement.ofValue (some key) (if value = .null then .mapping [] else value)
      .ok (ofList elements)
  | .list items => do
      let elements ← items.mapM (PathElement.ofValue none)
      .ok (ofList elements)
  | value => refuse (.modelShape value.kind)

def toValue (m : PathModel) : Value :=
  .mapping (m.elements.entries.map fun entry => (entry.1,entry.2.toValue))

end PathModel

end PathQuery
