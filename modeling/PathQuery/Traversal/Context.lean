import PathQuery.Pattern.Term
import PathQuery.Selection.Graph
import PathQuery.Traversal.Breadth

/-! The context of each node: which references are crossed on the way down to it. Nodes share
variables only within one context. -/
namespace PathQuery.SelectionGraph

def rootContext : String := "root"

def crossing (context id : String) : String := context ++ "|ref:" ++ fragment id

def isReferenceNode (g : SelectionGraph) (id : String) : Bool := (g.node? id).any (·.isReference)

def isBoundary (g : SelectionGraph) (transition : String × String) : Bool :=
  g.edges.any fun e => e.boundary && e.transition == transition && g.isInternal e

def contextSteps (g : SelectionGraph) (id context : String) : List (String × String) :=
  -- A reference is crossed below itself; a boundary edge into any other node is crossed at the node.
  let base := if g.isReferenceNode id then crossing context id else context
  (g.targetsOf id).map fun child =>
    (child,if g.isBoundary (id,child) && !g.isReferenceNode child then crossing base child else base)

def origins (g : SelectionGraph) : List String :=
  (sortedIds g.nodeIds).filter fun id => (g.sourcesOf id).isEmpty

def contextRoots (g : SelectionGraph) : List String :=
  match g.selectedCentral with
  | some id => id :: g.origins.filter (· ≠ id)
  | none => g.origins

def contexts (g : SelectionGraph) : Table String String :=
  let ids := sortedIds g.nodeIds
  let orphan := fun id => [(id,rootContext ++ "|orphan:" ++ fragment id)]
  ⟨Breadth.forest g.contextSteps ids (g.contextRoots.map (·,rootContext) :: ids.map orphan)⟩

end PathQuery.SelectionGraph
