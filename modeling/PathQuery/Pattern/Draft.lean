import PathQuery.Pattern.Emission
import PathQuery.Pattern.Walk
import PathQuery.Traversal.Plan

/-! A pattern in the making: unique triples, the requests for them, and the variables of the nodes. -/
namespace PathQuery

def stemOf (node : SelectedNode) : String := fragment node.source

def wishesFrom (graph : SelectionGraph) : List String → List String → List (String × String)
  | _, [] => []
  | seen, id :: rest => match graph.node? id with
    | none => wishesFrom graph seen rest
    | some node =>
        let stem := stemOf node
        let before := seen.count stem
        let wish := if before = 0 then stem ++ "_node" else stem ++ "_node_" ++ toString (before + 1)
        (id,wish) :: wishesFrom graph (stem :: seen) rest

def SelectionGraph.wishes (graph : SelectionGraph) (order : List String) : Table String String :=
  .ofList (wishesFrom graph [] order)

structure Draft where
  graph : SelectionGraph
  fullPrefixes : Bool
  plan : TraversalPlan
  wishes : Table String String
  records : Table Triple Int
  log : EmissionLog
  names : Names Stretch
  selected : Table String String
  firsts : Table String String
  comments : Table String (List String)

namespace Draft

def start (graph : SelectionGraph) (fullPrefixes : Bool) : Draft :=
  let plan := graph.plan
  { graph := graph, fullPrefixes := fullPrefixes, plan := plan, wishes := graph.wishes plan.order
    records := .empty, log := .empty, names := .empty
    selected := .empty, firsts := .empty, comments := .empty }

def nodeName (d : Draft) (id : String) : String := ((d.graph.node? id).map (·.name)).getD id

def setParent (d : Draft) (child parent : String) : Draft :=
  { d with plan := { d.plan with parents := d.plan.parents.insert child parent } }

def request (d : Draft) (triple : Triple) (depth : Int) (owner : Option String) : Emission × Draft :=
  let depth := max 0 depth
  let emission := ⟨d.log.nextId,triple,depth,owner⟩
  let smallest := match d.records.find? triple with
    | some before => min before depth
    | none => depth
  (emission,{ d with
    records := d.records.insert triple smallest
    log := d.log.skip.append emission })

def requestAll (d : Draft) (triples : List Triple) (depth : Int) (owner : Option String) : Draft :=
  triples.foldl (fun d triple => (d.request triple depth owner).2) d

def comment (d : Draft) (emission text : String) : Draft :=
  let there := d.comments.findD emission []
  { d with comments := d.comments.insert emission (if there.contains text then there else there ++ [text]) }

def depthOf (d : Draft) (id : String) : Int := d.plan.depths.findD id 0

def walkerOf (d : Draft) (id : String) (node : SelectedNode) : Walker :=
  { context := d.plan.contexts.findD id "root"
    owner := if d.fullPrefixes then some id else none
    stem := stemOf node
    selected := d.wishes.findD id (stemOf node ++ "_node") }

def emitNode (d : Draft) (id : String) : Draft :=
  match d.graph.node? id with
  | none => d
  | some node => match (d.walkerOf id node).walk? d.names node.path with
    | none => d
    | some walk =>
        let first := d.log.nextId
        { d.requestAll walk.triples (d.depthOf id) (some id) with
          names := walk.names
          firsts := d.firsts.insert id first
          selected := d.selected.insert id walk.current }

end Draft

end PathQuery
