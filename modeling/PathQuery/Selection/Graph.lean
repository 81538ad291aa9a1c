import PathQuery.Schema.Model

/-! The nodes and edges that a user has picked, with the central node and the nodes to be counted. -/
namespace PathQuery

structure SelectedNode where
  id : String
  source : String
  element : Option PathElement
  deriving DecidableEq, Repr

namespace SelectedNode

def path (n : SelectedNode) : List String := match n.element with
  | some e => e.path
  | none => []

def multiple (n : SelectedNode) : Bool := n.element.any (·.multiple)

def isReference (n : SelectedNode) : Bool := n.element.any PathElement.isReference

def rawName (n : SelectedNode) : String :=
  let given := (n.element.map (·.name)).getD ""
  if given ≠ "" then given else if n.source ≠ "" then n.source else n.id

def name (n : SelectedNode) : String :=
  let line := [' '].intercalate (Text.words n.rawName.toList)
  if line.isEmpty then n.id else String.ofList line

end SelectedNode

structure SelectedEdge where
  source : String
  target : String
  bridge : Value
  boundary : Bool
  deriving DecidableEq, Repr

namespace SelectedEdge

def transition (e : SelectedEdge) : String × String := (e.source,e.target)

def bridgePredicate (e : SelectedEdge) : String := match e.bridge with
  | .text s => Text.strip s
  | _ => ""

def bridgeFault? (e : SelectedEdge) : Option Fault := match e.bridge with
  | .text _ => none
  | value => if value.holds then some (.notText value.kind) else none

end SelectedEdge

structure SelectionGraph where
  nodes : List SelectedNode
  edges : List SelectedEdge
  central : Option String
  count : List String
  deriving DecidableEq, Repr

namespace SelectionGraph

def nodeIds (g : SelectionGraph) : List String := g.nodes.map (·.id)

def node? (g : SelectionGraph) (id : String) : Option SelectedNode :=
  -- Of several nodes with one id the last is found.
  g.nodes.reverse.find? fun n => n.id = id

def contains (g : SelectionGraph) (id : String) : Bool := g.nodeIds.contains id

def size (g : SelectionGraph) : Nat := g.nodes.length

def edgesWithin (g : SelectionGraph) (ids : List String) : List SelectedEdge :=
  g.edges.filter fun e => ids.contains e.source && ids.contains e.target

def internalEdges (g : SelectionGraph) : List SelectedEdge := g.edgesWithin g.nodeIds

def transitions (g : SelectionGraph) : List (String × String) := g.internalEdges.map (·.transition)

def selectedCentral (g : SelectionGraph) : Option String := g.central.filter g.contains

def effectiveCentral (g : SelectionGraph) : Option String :=
  match g.selectedCentral with
  | some id => if id = "" then g.nodeIds.head? else some id
  | none => g.nodeIds.head?

def withCentral (g : SelectionGraph) (id : String) : SelectionGraph := { g with central := some id }

def restrict (g : SelectionGraph) (ids : List String) : SelectionGraph :=
  { nodes := g.nodes.filter fun n => ids.contains n.id
    edges := g.edgesWithin ids
    central := g.central
    count := g.count.filter ids.contains }

def isInternal (g : SelectionGraph) (e : SelectedEdge) : Bool := g.contains e.source && g.contains e.target

def targetsOf (g : SelectionGraph) (id : String) : List String :=
  sortedIds ((g.edges.filter fun e => e.source = id && g.isInternal e).map (·.target))

def sourcesOf (g : SelectionGraph) (id : String) : List String :=
  sortedIds ((g.edges.filter fun e => e.target = id && g.isInternal e).map (·.source))

def neighboursOf (g : SelectionGraph) (id : String) : List String :=
  sortedIds (g.targetsOf id ++ g.sourcesOf id)

def bridgeFault? (g : SelectionGraph) : Option Fault := g.internalEdges.findSome? (·.bridgeFault?)

theorem memInternalEdges {g : SelectionGraph} {e : SelectedEdge} :
    e ∈ g.internalEdges ↔ e ∈ g.edges ∧ e.source ∈ g.nodeIds ∧ e.target ∈ g.nodeIds := by
  simp [internalEdges,edgesWithin]

theorem memTransitions {g : SelectionGraph} {s t : String} :
    (s,t) ∈ g.transitions ↔ ∃ e ∈ g.edges, e.source = s ∧ e.target = t ∧ s ∈ g.nodeIds ∧ t ∈ g.nodeIds := by
  simp only [transitions,List.mem_map,memInternalEdges,SelectedEdge.transition,Prod.mk.injEq]
  constructor
  · rintro ⟨e,⟨member,source,target⟩,rfl,rfl⟩
    exact ⟨e,member,rfl,rfl,source,target⟩
  · rintro ⟨e,member,rfl,rfl,source,target⟩
    exact ⟨e,⟨member,source,target⟩,rfl,rfl⟩

theorem memTargetsOf {g : SelectionGraph} {s t : String} : t ∈ g.targetsOf s ↔ (s,t) ∈ g.transitions := by
  simp only [targetsOf,memSortedIds,List.mem_map,List.mem_filter,memTransitions,isInternal,contains,
    Bool.and_eq_true,decide_eq_true_eq,List.contains_iff_mem]
  constructor
  · rintro ⟨e,⟨member,rfl,source,target⟩,rfl⟩
    exact ⟨e,member,rfl,rfl,source,target⟩
  · rintro ⟨e,member,rfl,rfl,source,target⟩
    exact ⟨e,⟨member,rfl,source,target⟩,rfl⟩

theorem memSourcesOf {g : SelectionGraph} {s t : String} : s ∈ g.sourcesOf t ↔ (s,t) ∈ g.transitions := by
  simp only [sourcesOf,memSortedIds,List.mem_map,List.mem_filter,memTransitions,isInternal,contains,
    Bool.and_eq_true,decide_eq_true_eq,List.contains_iff_mem]
  constructor
  · rintro ⟨e,⟨member,rfl,source,target⟩,rfl⟩
    exact ⟨e,member,rfl,rfl,source,target⟩
  · rintro ⟨e,member,rfl,rfl,source,target⟩
    exact ⟨e,⟨member,rfl,source,target⟩,rfl⟩

theorem memNeighboursOf {g : SelectionGraph} {v w : String} :
    w ∈ g.neighboursOf v ↔ (v,w) ∈ g.transitions ∨ (w,v) ∈ g.transitions := by
  simp [neighboursOf,memSortedIds,memTargetsOf,memSourcesOf]

theorem nodeFound {g : SelectionGraph} {id : String} {n : SelectedNode} (found : g.node? id = some n) :
    n ∈ g.nodes ∧ n.id = id :=
  ⟨List.mem_reverse.mp (List.mem_of_find?_eq_some found),by simpa using List.find?_some found⟩

theorem idOfNode {g : SelectionGraph} {id : String} {n : SelectedNode} (found : g.node? id = some n) :
    id ∈ g.nodeIds := by
  obtain ⟨there,rfl⟩ := nodeFound found
  exact List.mem_map.mpr ⟨n,there,rfl⟩

theorem nodeOfId {g : SelectionGraph} {id : String} (there : id ∈ g.nodeIds) : ∃ n, g.node? id = some n := by
  obtain ⟨n,member,same⟩ := List.mem_map.mp there
  cases found : g.node? id with
  | some n => exact ⟨n,rfl⟩
  | none =>
      have := List.find?_eq_none.mp found n (List.mem_reverse.mpr member)
      simp [same] at this

theorem effectiveCentralMem {g : SelectionGraph} {id : String} (central : g.effectiveCentral = some id) :
    id ∈ g.nodeIds := by
  unfold effectiveCentral at central
  split at central
  · next picked selected =>
    split at central
    · exact List.mem_of_head? central
    · cases Option.some.inj central
      obtain ⟨_,there⟩ := Option.filter_eq_some_iff.mp selected
      simpa [contains] using there
  · exact List.mem_of_head? central

theorem endsOfTransition {g : SelectionGraph} {link : String × String} (there : link ∈ g.transitions) :
    link.1 ∈ g.nodeIds ∧ link.2 ∈ g.nodeIds := by
  obtain ⟨_,_,_,_,source,target⟩ := memTransitions.mp (show (link.1,link.2) ∈ g.transitions from there)
  exact ⟨source,target⟩

end SelectionGraph

end PathQuery
