import PathQuery.Selection.Reader

/-! Selections without the names of their elements. A selection is read in the same way whatever the elements
of the model are called. -/
namespace PathQuery

def PathElement.unnamed (e : PathElement) : PathElement := { e with name := "" }

def PathModel.unnamed (m : PathModel) : PathModel :=
  ⟨⟨m.elements.entries.map fun entry => (entry.1,entry.2.unnamed)⟩⟩

def SelectedNode.unnamed (n : SelectedNode) : SelectedNode := { n with element := n.element.map .unnamed }

def SelectionGraph.unnamed (g : SelectionGraph) : SelectionGraph := { g with nodes := g.nodes.map .unnamed }

theorem Table.lookupMap {κ α β : Type} [DecidableEq κ] (f : α → β) (key : κ) (entries : List (κ × α)) :
    lookup key (entries.map fun entry => (entry.1,f entry.2)) = (lookup key entries).map f := by
  induction entries with
  | nil => rfl
  | cons entry rest ih =>
      rw [List.map_cons,lookup,lookup,ih]
      split <;> rfl

namespace PathModel

variable (m : PathModel)

theorem getUnnamed (id : String) : m.unnamed.get? id = (m.get? id).map .unnamed :=
  Table.lookupMap _ _ _

theorem bridgeUnnamed (reference : String) : m.unnamed.bridgeFor reference = m.bridgeFor reference := by
  rw [bridgeFor,bridgeFor,getUnnamed]
  cases m.get? reference <;> rfl

end PathModel

namespace SelectionGraph

variable (m : PathModel)

theorem nodesUnnamed (seen : List String) (values : List Value) :
    readNodes m.unnamed seen values = (readNodes m seen values).map .unnamed := by
  induction values generalizing seen with
  | nil => rfl
  | cons value rest ih =>
      unfold readNodes
      simp only [ih,m.getUnnamed]
      split <;> rfl

theorem edgeBridgeUnnamed (fields : List (String × Value)) : bridgeOf m.unnamed fields = bridgeOf m fields := by
  simp only [bridgeOf,m.bridgeUnnamed]

theorem findUnnamed (nodes : List SelectedNode) (id : String) :
    (nodes.map SelectedNode.unnamed).find? (·.id = id) = (nodes.find? (·.id = id)).map .unnamed := by
  rw [List.find?_map]
  rfl

theorem referenceUnnamed (n : SelectedNode) : n.unnamed.isReference = n.isReference := by
  unfold SelectedNode.isReference SelectedNode.unnamed
  cases n.element <;> rfl

theorem multipleUnnamed (n : SelectedNode) : n.unnamed.multiple = n.multiple := by
  unfold SelectedNode.multiple SelectedNode.unnamed
  cases n.element <;> rfl

theorem pathUnnamed (n : SelectedNode) : n.unnamed.path = n.path := by
  unfold SelectedNode.path SelectedNode.unnamed
  cases n.element <;> rfl

theorem edgeUnnamed (nodes : List SelectedNode) :
    readEdge m.unnamed (nodes.map .unnamed) = readEdge m nodes := by
  funext value
  cases value with
  | mapping fields =>
      simp only [readEdge,findUnnamed,edgeBridgeUnnamed]
      cases nodes.find? (·.id = ((Value.fieldOf "source" fields).getD (.text "")).label) with
      | none => rfl
      | some source =>
          cases nodes.find? (·.id = ((Value.fieldOf "target" fields).getD (.text "")).label) with
          | none => rfl
          | some target => simp only [Option.map_some,referenceUnnamed]
  | _ => rfl

theorem readUnnamed (value : Value) : ofValue m.unnamed value = (ofValue m value).map .unnamed := by
  change _ = SelectionGraph.unnamed <$> ofValue m value
  cases value with
  | mapping fields =>
      simp only [ofValue,nodesUnnamed,edgeUnnamed,map_bind]
      rfl
  | _ => rfl

theorem readAlike {m other : PathModel} (same : m.unnamed = other.unnamed) (value : Value) :
    (ofValue m value).map unnamed = (ofValue other value).map unnamed := by
  rw [← readUnnamed,← readUnnamed,same]

end SelectionGraph

end PathQuery
