import PathQuery.Pattern.Draft
import PathQuery.Proofs.Labels.Selection
import PathQuery.Proofs.Traversal.Shape
import PathQuery.Query.Compile

/-! The plan of a selection asks its nodes for everything but their names. -/
namespace PathQuery

namespace SelectionGraph

variable (g : SelectionGraph)

@[simp] theorem unnamedIds : g.unnamed.nodeIds = g.nodeIds := by
  simp [nodeIds,unnamed,SelectedNode.unnamed]

@[simp] theorem unnamedNode (id : String) : g.unnamed.node? id = (g.node? id).map .unnamed := by
  rw [node?,unnamed,← List.map_reverse]
  exact findUnnamed g.nodes.reverse id

@[simp] theorem unnamedContains : g.unnamed.contains = g.contains := by
  funext id
  simp [contains]

@[simp] theorem unnamedEdges : g.unnamed.internalEdges = g.internalEdges := by
  simp only [internalEdges,unnamedIds]
  rfl

@[simp] theorem unnamedInternal : g.unnamed.isInternal = g.isInternal := by
  funext e
  simp [isInternal]

@[simp] theorem unnamedTargets : g.unnamed.targetsOf = g.targetsOf := by
  funext id
  simp only [targetsOf,unnamedInternal]
  rfl

@[simp] theorem unnamedSources : g.unnamed.sourcesOf = g.sourcesOf := by
  funext id
  simp only [sourcesOf,unnamedInternal]
  rfl

@[simp] theorem unnamedSelected : g.unnamed.selectedCentral = g.selectedCentral := by
  simp only [selectedCentral,unnamedContains]
  rfl

@[simp] theorem unnamedEffective : g.unnamed.effectiveCentral = g.effectiveCentral := by
  simp [effectiveCentral]

@[simp] theorem unnamedFault : g.unnamed.bridgeFault? = g.bridgeFault? := by simp [bridgeFault?]

@[simp] theorem unnamedMultiple : g.unnamed.isMultipleNode = g.isMultipleNode := by
  funext id
  rw [isMultipleNode,isMultipleNode,unnamedNode]
  cases g.node? id with
  | none => rfl
  | some n => exact multipleUnnamed n

@[simp] theorem unnamedReference : g.unnamed.isReferenceNode = g.isReferenceNode := by
  funext id
  rw [isReferenceNode,isReferenceNode,unnamedNode]
  cases g.node? id with
  | none => rfl
  | some n => exact referenceUnnamed n

@[simp] theorem unnamedBoundary : g.unnamed.isBoundary = g.isBoundary := by
  funext transition
  simp only [isBoundary,unnamedInternal]
  rfl

theorem unnamedShape : SameShape g.unnamed g where
  ids := congrArg sortedIds g.unnamedIds
  targets := g.unnamedTargets
  sources := g.unnamedSources
  boundary := g.unnamedBoundary
  reference := g.unnamedReference
  multiple := g.unnamedMultiple
  selected := g.unnamedSelected
  effective := g.unnamedEffective

@[simp] theorem unnamedDepths : g.unnamed.depths = g.depths := g.unnamedShape.depths

@[simp] theorem unnamedPlan : g.unnamed.plan = g.plan := g.unnamedShape.plan

@[simp] theorem unnamedRestrict (ids : List String) : (g.restrict ids).unnamed = g.unnamed.restrict ids := by
  simp only [restrict,unnamed,List.filter_map]
  rfl

@[simp] theorem unnamedCentral (id : String) : (g.withCentral id).unnamed = g.unnamed.withCentral id := rfl

@[simp] theorem unnamedClosures : CountClosures.ofGraph g.unnamed = CountClosures.ofGraph g :=
  g.unnamedShape.closures rfl

@[simp] theorem unnamedOuter : g.outer.unnamed = g.unnamed.outer := by simp [outer]

@[simp] theorem unnamedFullPrefixes (o : QueryOptions) : g.unnamed.fullPrefixes o = g.fullPrefixes o := by
  simp only [fullPrefixes,unnamedEffective]
  cases g.effectiveCentral with
  | none => rfl
  | some central =>
      simp only [Option.bind_some,unnamedNode]
      cases g.node? central with
      | none => rfl
      | some n =>
          obtain ⟨id,source,element⟩ := n
          cases element <;> rfl

@[simp] theorem unnamedHeader (full : Bool) : g.unnamed.headerLines full = g.headerLines full := by
  have size : g.unnamed.size = g.size := List.length_map _
  rw [headerLines,size]
  rfl

end SelectionGraph

end PathQuery
