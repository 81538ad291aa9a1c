import PathQuery.Selection.Graph

/-! Reading a selection against a path model, and writing it. -/
namespace PathQuery.SelectionGraph

def listSection (fields : List (String × Value)) (name : String) : Except Fault (List Value) :=
  match Value.member fields name with
  | .null => .ok []
  | .list items => .ok items
  | value => refuse (.sectionNotList name value.kind)

def nodeIdsOf : Value → String × String
  | .mapping fields =>
      let id := ((Value.fieldOf "id" fields).getD (.text "")).label
      let given := Value.member fields "path"
      (id,if given.holds then given.label else id)
  | value => (value.label,value.label)

def readNodes (model : PathModel) (seen : List String) : List Value → List SelectedNode
  | [] => []
  | value :: rest =>
      let (id,source) := nodeIdsOf value
      if id = "" || seen.contains id then readNodes model seen rest
      else ⟨id,source,model.get? source⟩ :: readNodes model (id :: seen) rest

def bridgeOf (model : PathModel) (fields : List (String × Value)) : Value :=
  let given := Value.member fields "bridge"
  if given.holds then given
  else
    let via := Value.member fields "via_reference"
    if via.holds then match model.bridgeFor via.bare with
      | some iri => if iri = "" then .null else .text iri
      | none => .null
    else .null

def readEdge (model : PathModel) (nodes : List SelectedNode) : Value → Except Fault (Option SelectedEdge)
  | .mapping fields =>
      let source := ((Value.fieldOf "source" fields).getD (.text "")).label
      let target := ((Value.fieldOf "target" fields).getD (.text "")).label
      match nodes.find? (·.id = source),nodes.find? (·.id = target) with
      | some _,some node => do
          let given := Value.member fields "boundary"
          let boundary ← if given = .null then .ok node.isReference else given.toFlag "boundary"
          .ok (some ⟨source,target,bridgeOf model fields,boundary⟩)
      | _,_ => .ok none
  | value => refuse (.edgeNotMapping value.kind)

def ofValue (model : PathModel) : Value → Except Fault SelectionGraph
  | .mapping fields => do
      let nodes := readNodes model [] (← listSection fields "nodes")
      let edges ← (← listSection fields "edges").mapM (readEdge model nodes)
      let count ← listSection fields "count"
      let central := Value.member fields "central"
      .ok
        { nodes := nodes
          edges := edges.filterMap id
          central := if central.holds then some central.label else none
          count := count.map Value.label }
  | value => refuse (.selectionNotMapping value.kind)

def edgeValue (e : SelectedEdge) : Value :=
  .mapping
    [("source",.text e.source),("target",.text e.target),("bridge",e.bridge),("boundary",.flag e.boundary)]

def toValue (g : SelectionGraph) : Value :=
  .mapping
    [("central",Value.ofOption .text g.central),("count",Value.texts g.count),
      ("nodes",.list (g.nodes.map fun n => .mapping [("id",.text n.id),("path",.text n.source)])),
      ("edges",.list (g.edges.map edgeValue))]

end PathQuery.SelectionGraph
