import PathQuery.Pattern.Draft

/-! Edges between nodes of a pattern: the triples of bridges, and a comment for every transition. -/
namespace PathQuery

inductive Arrow where
  | plain
  | rising
  | falling
  deriving DecidableEq, Repr

def Arrow.label : Arrow → String
  | plain => ">"
  | rising => "<<-"
  | falling => "->>"

def transitionComment (source : String) (arrow : String) (target : String) : String :=
  "# " ++ source ++ " " ++ arrow ++ " " ++ target

def centralComment (name : String) : String := "# >>>> Central node: " ++ name ++ " <<<<"

namespace Draft

def crossingArrow (d : Draft) (transition : String × String) : Arrow :=
  if d.plan.rising.contains transition then .rising else .falling

def transitionText (d : Draft) (transition : String × String) (arrow : Arrow) : String :=
  transitionComment (d.nodeName transition.1) arrow.label (d.nodeName transition.2)

def bridge (d : Draft) (edge : SelectedEdge) : Draft :=
  match d.selected.find? edge.source,d.selected.find? edge.target with
  | some source,some target =>
      let (emission,d) := d.request (linkTriple source edge.bridgePredicate target)
        (d.depthOf edge.target) (some edge.target)
      let d := d.comment emission.id (d.transitionText edge.transition (d.crossingArrow edge.transition))
      match d.firsts.find? edge.target with
      | some anchor => { d with log := d.log.moveBefore emission.id anchor }
      | none => d
  | _,_ => d

def soundEdges (d : Draft) : List SelectedEdge :=
  d.graph.internalEdges.takeWhile fun edge => edge.bridgeFault?.isNone

def bridgedEdges (edges : List SelectedEdge) : List SelectedEdge :=
  edges.filter fun edge => edge.bridgePredicate ≠ ""

def resolveBridges (d : Draft) : Draft × Except Fault (List (String × String)) :=
  let bridged := bridgedEdges d.soundEdges
  (bridged.foldl bridge d,
    match d.graph.bridgeFault? with
    | some fault => .error fault
    | none => .ok (bridged.map (·.transition)))

def boundaries (d : Draft) : List (String × String) :=
  (d.graph.internalEdges.filter fun edge => edge.bridgePredicate = "" && edge.boundary).map (·.transition)

def arrowOf (d : Draft) (crossings : List (String × String)) (transition : String × String) : Arrow :=
  if crossings.contains transition then d.crossingArrow transition else .plain

def announce (d : Draft) (crossings : List (String × String)) (transition : String × String) : Draft :=
  match d.firsts.find? transition.2 with
  | some anchor => d.comment anchor (d.transitionText transition (d.arrowOf crossings transition))
  | none => d

def plainTransitions (d : Draft) (bridged : List (String × String)) : List (String × String) :=
  sortBy pairBefore ((d.graph.transitions.filter fun t => !bridged.contains t).eraseDups)

def parentSteps (d : Draft) (bridged plain : List (String × String)) : List (String × String) :=
  (d.plan.parents.entries.map fun entry => (entry.2,entry.1)).filter fun t =>
    !plain.contains t && !bridged.contains t

def annotate (d : Draft) (bridged : List (String × String)) : Except Fault Draft :=
  match d.graph.bridgeFault? with
  | some fault => .error fault
  | none =>
      let crossings := bridged ++ d.boundaries
      let plain := d.plainTransitions bridged
      .ok ((plain ++ d.parentSteps bridged plain).foldl (fun d t => d.announce crossings t) d)

end Draft

end PathQuery
