import PathQuery.Selection.Graph
import PathQuery.Traversal.Breadth

/-! The depth of each node: a step up to a source is one less, a step down to a target one more. -/
namespace PathQuery.SelectionGraph

def depthSteps (g : SelectionGraph) (id : String) (depth : Int) : List (String × Int) :=
  (g.sourcesOf id).map (·,depth - 1) ++ (g.targetsOf id).map (·,depth + 1)

def signedDepths (g : SelectionGraph) : List (String × Int) :=
  let ids := sortedIds g.nodeIds
  Breadth.forest g.depthSteps ids ((g.effectiveCentral.toList ++ ids).map fun id => [(id,0)])

def lowest (depths : List Int) : Int := depths.foldl min 0

def depths (g : SelectionGraph) : Table String Int :=
  let signed := g.signedDepths
  let shift := lowest (signed.map (·.2))
  ⟨signed.map fun entry => (entry.1,entry.2 - shift)⟩

end PathQuery.SelectionGraph
