import PathQuery.Traversal.Chain
import PathQuery.Traversal.Depth
import PathQuery.Traversal.Order

/-! All that has to be known of the shape of a selection before its triples are made. -/
namespace PathQuery

structure TraversalPlan where
  central : Option String
  depths : Table String Int
  contexts : Table String String
  order : List String
  parents : Table String String
  rising : List (String × String)
  chains : Table String (List String)

def SelectionGraph.plan (g : SelectionGraph) : TraversalPlan :=
  let central := g.effectiveCentral
  let emission := g.emissionOrder
  { central := central
    depths := g.depths
    contexts := g.contexts
    order := emission.order
    parents := emission.parents
    rising := emission.rising
    chains := g.optionalChains emission.order emission.parents central }

end PathQuery
