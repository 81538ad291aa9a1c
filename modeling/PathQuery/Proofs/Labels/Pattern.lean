import PathQuery.Pattern.Build
import PathQuery.Proofs.Labels.Plan
import PathQuery.Proofs.Pattern.Nodes
import PathQuery.Proofs.Query.Scope

/-! A pattern without what it says of names: its comments, and the text of its marker. The rest of it, and so
every line that is no comment, does not depend on what the elements are called. -/
namespace PathQuery

theorem unnamedAlike (g : SelectionGraph) : EmitsAlike g g.unnamed := fun id => by
  rw [SelectionGraph.unnamedNode,Option.map_map]
  exact congrArg (Option.map · (g.node? id)) (funext fun n =>
    congrArg (n.source,·) (SelectionGraph.pathUnnamed n).symm)

namespace Draft

def hushed (d : Draft) : Draft := { d with comments := .empty }

def bare (d : Draft) : Draft := { d.hushed with graph := d.graph.unnamed }

theorem bareEmitted (g : SelectionGraph) (full : Bool) :
    (start g.unnamed full).emitAll = (start g full).emitAll.bare := by
  have kept := emitNodesKeep g.plan.order (start g full)
  rw [emitAllOther (unnamedAlike g) g.unnamedPlan.symm]
  generalize made : (start g full).emitAll = d
  have graph : d.graph = g := by rw [← made]; exact kept.1
  have quiet : d.comments = .empty := by rw [← made]; exact kept.2
  rw [bare,hushed,graph,← quiet]

theorem bareBridge (d : Draft) (e : SelectedEdge) : (d.bridge e).bare = (d.bare.bridge e).hushed := by
  unfold bridge
  rw [show d.bare.selected = d.selected from rfl]
  cases d.selected.find? e.source with
  | none => rfl
  | some source =>
      cases d.selected.find? e.target with
      | none => rfl
      | some target =>
          simp only [request,comment]
          rw [show d.bare.firsts = d.firsts from rfl]
          cases d.firsts.find? e.target <;> rfl

theorem hushedBridge (d : Draft) (e : SelectedEdge) : (d.hushed.bridge e).hushed = (d.bridge e).hushed := by
  unfold bridge
  rw [show d.hushed.selected = d.selected from rfl]
  cases d.selected.find? e.source with
  | none => rfl
  | some source =>
      cases d.selected.find? e.target with
      | none => rfl
      | some target =>
          simp only [request,comment]
          rw [show d.hushed.firsts = d.firsts from rfl]
          cases d.firsts.find? e.target <;> rfl

theorem hushedBridges (edges : List SelectedEdge) (d : Draft) :
    (edges.foldl bridge d.hushed).hushed = (edges.foldl bridge d).hushed := by
  induction edges generalizing d with
  | nil => rfl
  | cons e rest ih => rw [List.foldl_cons,List.foldl_cons,← ih,hushedBridge,ih]

theorem bareBridges (edges : List SelectedEdge) (d : Draft) :
    (edges.foldl bridge d).bare = (edges.foldl bridge d.bare).hushed := by
  induction edges generalizing d with
  | nil => rfl
  | cons e rest ih => rw [List.foldl_cons,List.foldl_cons,ih,bareBridge,hushedBridges]

theorem hushedAnnotate {d after : Draft} {bridged : List (String × String)}
    (done : d.annotate bridged = .ok after) : after.hushed = d.hushed := by
  obtain ⟨comments,rfl⟩ := annotateElse done
  rfl

end Draft

def Pattern.bare (p : Pattern) : Pattern :=
  { p with comments := .empty, central := p.central.map fun m => ⟨m.emission,""⟩ }

def SelectPattern.bare (p : SelectPattern) : SelectPattern := { p with toPattern := p.toPattern.bare }

section

variable {p q : SelectPattern} (same : p.bare = q.bare)

include same

theorem bareSelected : p.selected = q.selected :=
  show p.bare.selected = q.bare.selected from congrArg SelectPattern.selected same

theorem bareOrder : p.order = q.order := show p.bare.order = q.bare.order from congrArg SelectPattern.order same

theorem barePattern : p.toPattern.bare = q.toPattern.bare := congrArg SelectPattern.toPattern same

theorem bareRecords : p.records = q.records :=
  show p.toPattern.bare.records = q.toPattern.bare.records from congrArg Pattern.records (barePattern same)

end

theorem finishHushed (d : Draft) : d.hushed.finish.bare = d.finish.bare := rfl

theorem finishBare (d : Draft) : d.bare.finish.bare = d.finish.bare := by
  have marker : d.bare.marker.map (fun m => (⟨m.emission,""⟩ : Marker)) =
      d.marker.map fun m => ⟨m.emission,""⟩ := by
    unfold Draft.marker
    rw [show d.bare.plan = d.plan from rfl,show d.bare.firsts = d.firsts from rfl]
    cases d.plan.central with
    | none => rfl
    | some id => cases found : d.firsts.find? id <;> simp [found]
  have rest : d.bare.finish.bare = { d.finish.bare with
    central := d.bare.marker.map fun m => ⟨m.emission,""⟩ } := rfl
  rw [rest,marker]
  rfl

theorem annotateBare {d other : Draft} (same : other.hushed = d.bare) (bridged : List (String × String)) :
    ((other.annotate bridged).map Draft.finish).map SelectPattern.bare =
      ((d.annotate bridged).map Draft.finish).map SelectPattern.bare := by
  have fault : other.graph.bridgeFault? = d.graph.bridgeFault? := by
    rw [show other.graph = d.graph.unnamed from congrArg Draft.graph same,SelectionGraph.unnamedFault]
  cases found : d.graph.bridgeFault? with
  | some f => rw [Draft.annotate,Draft.annotate,fault,found]
  | none =>
      have sound : ∀ d : Draft, d.graph.bridgeFault? = none → ∃ after, d.annotate bridged = .ok after := by
        intro d none
        unfold Draft.annotate
        rw [none]
        exact ⟨_,rfl⟩
      obtain ⟨after,first⟩ := sound d found
      obtain ⟨later,second⟩ := sound other (fault.trans found)
      rw [first,second]
      refine congrArg Except.ok ?_
      have alike : later.hushed = after.bare := calc
        later.hushed = d.bare := (Draft.hushedAnnotate second).trans same
        _ = d.hushed.bare := rfl
        _ = after.hushed.bare := congrArg Draft.bare (Draft.hushedAnnotate first).symm
        _ = after.bare := rfl
      rw [← finishHushed later,alike,finishBare]

theorem buildSteps (d : Draft) : d.build.2 = d.emitAll.resolveBridges.2.bind fun bridged =>
    (d.emitAll.resolveBridges.1.annotate bridged).map Draft.finish := by
  unfold Draft.build
  generalize d.emitAll.resolveBridges = resolved
  obtain ⟨after,_ | bridged⟩ := resolved
  · rfl
  · simp only [Except.bind]
    cases after.annotate bridged <;> rfl

theorem resolvedBare (d : Draft) :
    (d.bare.resolveBridges.2.bind fun bridged =>
        (d.bare.resolveBridges.1.annotate bridged).map Draft.finish).map SelectPattern.bare =
      (d.resolveBridges.2.bind fun bridged =>
        (d.resolveBridges.1.annotate bridged).map Draft.finish).map SelectPattern.bare := by
  have sound : d.bare.soundEdges = d.soundEdges := by
    rw [Draft.soundEdges,Draft.soundEdges,show d.bare.graph = d.graph.unnamed from rfl,
      SelectionGraph.unnamedEdges]
  have fault : d.bare.graph.bridgeFault? = d.graph.bridgeFault? := d.graph.unnamedFault
  have bridges := Draft.bareBridges (Draft.bridgedEdges d.soundEdges) d
  simp only [Draft.resolveBridges,sound,fault]
  cases d.graph.bridgeFault? with
  | some f => simp only [Except.bind]
  | none => exact annotateBare bridges.symm _

theorem patternUnnamed (g : SelectionGraph) (full : Bool) :
    (g.unnamed.pattern full).map SelectPattern.bare = (g.pattern full).map SelectPattern.bare := by
  rw [SelectionGraph.pattern,SelectionGraph.pattern,buildSteps,buildSteps,Draft.bareEmitted,resolvedBare]

namespace Pattern

variable {p : Pattern}

theorem notesSolid (e : Emission) : (p.notes e).filter Line.isSolid = [] := by
  refine List.filter_eq_nil_iff.mpr fun line member => ?_
  obtain ⟨text,_,member⟩ := List.mem_flatMap.mp member
  rcases List.mem_cons.mp member with rfl | member
  · decide
  · rw [List.mem_singleton.mp member]
    simp [Line.isSolid]

theorem markedBare (e : Emission) : p.bare.markerAt e = (p.markerAt e).map fun _ => "" := by
  unfold markerAt bare
  cases p.central with
  | none => rfl
  | some m => by_cases here : m.emission = e.id <;> simp [Option.filter,here]

theorem markingSolid (e : Emission) (opened : List Scope) :
    (p.bare.marking e opened).filter Line.isSolid = (p.marking e opened).filter Line.isSolid := by
  unfold marking
  rw [markedBare]
  cases p.markerAt e with
  | none => rfl
  | some comment =>
      simp only [Option.map_some,List.filter_append]
      rfl

theorem solidLinesFrom (opened : List Scope) (done : List Triple) (emissions : List Emission) :
    (p.bare.linesFrom opened done emissions).filter Line.isSolid =
      (p.linesFrom opened done emissions).filter Line.isSolid := by
  induction emissions generalizing opened done with
  | nil => rfl
  | cons e rest ih =>
      have marked : p.bare.marked e opened = p.marked e opened := by
        unfold Pattern.marked
        rw [markedBare]
        cases p.markerAt e <;> rfl
      have chain : p.bare.chainOf e = p.chainOf e := rfl
      have recorded : p.bare.records = p.records := rfl
      simp only [linesFrom,marked,chain,recorded]
      split
      · simp only [List.filter_append,notesSolid,markingSolid]
        congr 1
        split
        · exact ih _ _
        · simp only [List.filter_append,List.filter_cons,ih]
      · exact ih _ _

theorem solidLines (p : Pattern) (excluded : List Triple) :
    (p.bare.lines excluded).filter Line.isSolid = (p.lines excluded).filter Line.isSolid :=
  solidLinesFrom [] excluded p.emissions

end Pattern

end PathQuery
