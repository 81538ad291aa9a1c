import PathQuery.Traversal.Closure
import PathQuery.Traversal.Plan

/-! What a plan reads of a selection: its ids, the links between them and which of them are boundaries, which
nodes are references or multiple, and the central node. Two selections of one shape have one plan, and the
same closures of what they count. -/
namespace PathQuery

structure SameShape (g h : SelectionGraph) : Prop where
  ids : sortedIds g.nodeIds = sortedIds h.nodeIds
  targets : g.targetsOf = h.targetsOf
  sources : g.sourcesOf = h.sourcesOf
  boundary : g.isBoundary = h.isBoundary
  reference : g.isReferenceNode = h.isReferenceNode
  multiple : g.isMultipleNode = h.isMultipleNode
  selected : g.selectedCentral = h.selectedCentral
  effective : g.effectiveCentral = h.effectiveCentral

namespace SameShape

variable {g h : SelectionGraph} (same : SameShape g h)

include same

theorem depths : g.depths = h.depths := by
  have steps : g.depthSteps = h.depthSteps := by
    funext id depth
    rw [SelectionGraph.depthSteps,SelectionGraph.depthSteps,same.sources,same.targets]
  simp only [SelectionGraph.depths,SelectionGraph.signedDepths,steps,same.ids,same.effective]

theorem origins : g.origins = h.origins := by
  simp only [SelectionGraph.origins,same.ids,same.sources]

theorem contexts : g.contexts = h.contexts := by
  have steps : g.contextSteps = h.contextSteps := by
    funext id context
    simp only [SelectionGraph.contextSteps,same.targets,same.boundary,same.reference]
  simp only [SelectionGraph.contexts,SelectionGraph.contextRoots,steps,same.ids,same.selected,same.origins]

theorem climb (unseen : List String) (steps : List SelectionGraph.Step) :
    g.climb unseen steps = h.climb unseen steps := by
  fun_induction SelectionGraph.climb h unseen steps with
  | case1 unseen => simp [SelectionGraph.climb]
  | case2 unseen id rest walk ih => simp [SelectionGraph.climb,ih,walk]
  | case3 unseen id rest fresh walk ih => simp [SelectionGraph.climb,fresh,same.sources,ih,walk]
  | case4 unseen id rest seen ih => simp [SelectionGraph.climb,seen,ih]

theorem links : g.linksFrom = h.linksFrom := by
  funext id
  rw [SelectionGraph.linksFrom,SelectionGraph.linksFrom,same.targets]

theorem descend (unseen : List String) (links : List (String × String)) :
    g.descend unseen links = h.descend unseen links := by
  fun_induction SelectionGraph.descend h unseen links with
  | case1 unseen => simp [SelectionGraph.descend]
  | case2 unseen link rest fresh walk ih => simp [SelectionGraph.descend,fresh,same.links,ih,walk]
  | case3 unseen link rest seen walk ih => simp [SelectionGraph.descend,seen,ih,walk]

theorem descendAll (unseen ids : List String) : g.descendAll unseen ids = h.descendAll unseen ids := by
  fun_induction SelectionGraph.descendAll h unseen ids with
  | case1 unseen => rfl
  | case2 unseen id rest fresh walk more ih =>
      simp [SelectionGraph.descendAll,fresh,same.links,same.descend,ih,walk,more]
  | case3 unseen id rest seen ih => simp [SelectionGraph.descendAll,seen,ih]

theorem emissionOrder : g.emissionOrder = h.emissionOrder := by
  simp only [SelectionGraph.emissionOrder,same.ids,same.origins,same.effective,same.sources,same.links,
    same.climb,same.descend,same.descendAll]

theorem chainFrom : g.chainFrom = h.chainFrom := by
  funext parents central fuel
  induction fuel with
  | zero => rfl
  | succ fuel ih =>
      funext known below id
      simp only [SelectionGraph.chainFrom,ih,same.multiple]

theorem chains : g.optionalChains = h.optionalChains := by
  have each : ∀ parents central known chains order, SelectionGraph.chainsFrom g parents central known chains order =
      SelectionGraph.chainsFrom h parents central known chains order := by
    intro parents central known chains order
    induction order generalizing known chains with
    | nil => rfl
    | cons id rest ih => simp only [SelectionGraph.chainsFrom,SelectionGraph.chainOf,same.chainFrom,ih]
  funext order parents central
  exact each parents central .empty .empty order

theorem plan : g.plan = h.plan := by
  simp only [SelectionGraph.plan,same.effective,same.emissionOrder,same.depths,same.contexts,same.chains]

theorem centralTree : g.centralTree = h.centralTree := by
  have steps : g.treeSteps = h.treeSteps := by
    funext id parent
    simp only [SelectionGraph.treeSteps,SelectionGraph.neighboursOf,same.targets,same.sources]
  simp only [SelectionGraph.centralTree,SelectionGraph.treeFrom,steps,same.ids,same.effective]

theorem closures (count : g.count = h.count) : CountClosures.ofGraph g = CountClosures.ofGraph h := by
  rw [CountClosures.ofGraph,CountClosures.ofGraph,same.centralTree,count]

end SameShape

end PathQuery
