import Mathlib.Data.List.Sort
import Mathlib.Data.Prod.Lex
import Mathlib.Data.String.Basic
import PathQuery.Pattern.Bridge
import PathQuery.Proofs.Traversal.Coverage
import PathQuery.Proofs.Traversal.Shape
import PathQuery.Query.Compile

/-! Selections that list the same nodes and the same edges in another order. As long as the central node is
selected they have one shape, and so do the parts that are cut out of them. -/
namespace PathQuery

theorem sortedIdsCongr {ids others : List String} (same : ∀ id, id ∈ ids ↔ id ∈ others) :
    sortedIds ids = sortedIds others := by
  have increasing := fun ids => sortedIdsIncreasing ids
  exact (increasing ids).eq_of_mem_iff (increasing others) fun id => by rw [memSortedIds,memSortedIds,same]

theorem sortBySorts {α : Type} (before : α → α → Bool) (items : List α) :
    sortBy before items = items.insertionSort (before · · = true) := by
  have inserted : ∀ x items, insertBy before x items = List.orderedInsert (before · · = true) x items := by
    intro x items
    induction items with
    | nil => rfl
    | cons y rest ih => rw [insertBy,List.orderedInsert,ih]
  induction items with
  | nil => rfl
  | cons x rest ih => exact (inserted x _).trans (congrArg _ ih)

theorem pairBeforeIff {a b : String × String} : pairBefore a b = true ↔ toLex a ≤ toLex b := by
  simp [pairBefore,Prod.Lex.toLex_le_toLex]

theorem sortByPermutes {α : Type} (before : α → α → Bool) (items : List α) : (sortBy before items).Perm items := by
  rw [sortBySorts]
  exact List.perm_insertionSort _ _

theorem sortByPairs (items : List (String × String)) :
    (sortBy pairBefore items).Pairwise (pairBefore · · = true) := by
  let before : String × String → String × String → Prop := (pairBefore · · = true)
  have total : Std.Total before := ⟨fun a b => by simpa [before,pairBeforeIff] using le_total (toLex a) (toLex b)⟩
  have trans : IsTrans (String × String) before := ⟨fun a b c => by
    simpa [before,pairBeforeIff] using le_trans (a := toLex a)⟩
  rw [sortBySorts]
  exact List.pairwise_insertionSort before items

theorem sortByPerm {items others : List (String × String)} (perm : items.Perm others) :
    sortBy pairBefore items = sortBy pairBefore others := by
  have antisymm : Std.Antisymm (α := String × String) (pairBefore · · = true) := ⟨fun a b => by
    simpa [pairBeforeIff] using le_antisymm (a := toLex a) (b := toLex b)⟩
  have same := (sortByPermutes pairBefore items).trans (perm.trans (sortByPermutes pairBefore others).symm)
  exact same.eq_of_pairwise' (sortByPairs items) (sortByPairs others)

structure Reordered (g h : SelectionGraph) : Prop where
  nodes : g.nodes.Perm h.nodes
  edges : g.edges.Perm h.edges
  bridges : ∀ id, (Draft.bridgedEdges g.edges).filter (·.target = id) =
    (Draft.bridgedEdges h.edges).filter (·.target = id)
  central : g.central = h.central
  count : g.count = h.count

structure Centred (g : SelectionGraph) (central : String) : Prop where
  distinct : g.nodeIds.Nodup
  named : "" ∉ g.nodeIds
  given : g.central = some central
  inside : central ∈ g.nodeIds

variable {g h : SelectionGraph} {central : String}

theorem centredEffective (centred : Centred g central) : g.effectiveCentral = some central := by
  have selected : g.selectedCentral = some central := by
    rw [SelectionGraph.selectedCentral,centred.given,Option.filter_some,if_pos]
    simpa [SelectionGraph.contains] using centred.inside
  have filled : central ≠ "" := fun empty => centred.named (empty ▸ centred.inside)
  simp [SelectionGraph.effectiveCentral,selected,filled]

theorem nodeIff (distinct : g.nodeIds.Nodup) {id : String} {n : SelectedNode} :
    g.node? id = some n ↔ n ∈ g.nodes ∧ n.id = id := by
  refine ⟨SelectionGraph.nodeFound,fun ⟨member,same⟩ => ?_⟩
  obtain ⟨m,found⟩ := SelectionGraph.nodeOfId (g := g) (List.mem_map.mpr ⟨n,member,same⟩)
  obtain ⟨there,own⟩ := SelectionGraph.nodeFound found
  rw [found,List.inj_on_of_nodup_map distinct there member (own.trans same.symm)]

theorem memRestricted {ids : List String} {id : String} :
    id ∈ (g.restrict ids).nodeIds ↔ id ∈ g.nodeIds ∧ id ∈ ids := by
  simp only [SelectionGraph.restrict,SelectionGraph.nodeIds,List.mem_map,List.mem_filter,List.contains_iff_mem]
  constructor
  · rintro ⟨n,⟨member,inside⟩,rfl⟩
    exact ⟨⟨n,member,rfl⟩,inside⟩
  · rintro ⟨⟨n,member,rfl⟩,inside⟩
    exact ⟨n,⟨member,inside⟩,rfl⟩

theorem centredRestrict (centred : Centred g central) {ids : List String} (kept : central ∈ ids) :
    Centred (g.restrict ids) central where
  distinct := (List.filter_sublist.map _).nodup centred.distinct
  named := fun there => centred.named (memRestricted.mp there).1
  given := centred.given
  inside := memRestricted.mpr ⟨centred.inside,kept⟩

theorem centredAt (centred : Centred g central) {id : String} (inside : id ∈ g.nodeIds) :
    Centred (g.withCentral id) id :=
  ⟨centred.distinct,centred.named,rfl,inside⟩

namespace Reordered

variable (re : Reordered g h)

include re

theorem nodeIds : g.nodeIds.Perm h.nodeIds := re.nodes.map _

theorem memIds (id : String) : id ∈ g.nodeIds ↔ id ∈ h.nodeIds := re.nodeIds.mem_iff

theorem contains : g.contains = h.contains := by
  funext id
  rw [SelectionGraph.contains,SelectionGraph.contains,Bool.eq_iff_iff,List.contains_iff_mem,List.contains_iff_mem,
    re.memIds]

theorem internal : g.isInternal = h.isInternal := by
  funext e
  rw [SelectionGraph.isInternal,SelectionGraph.isInternal,re.contains]

theorem internalEdges : g.internalEdges.Perm h.internalEdges := by
  have same : (fun e : SelectedEdge => g.nodeIds.contains e.source && g.nodeIds.contains e.target) =
      fun e => h.nodeIds.contains e.source && h.nodeIds.contains e.target := re.internal
  rw [SelectionGraph.internalEdges,SelectionGraph.internalEdges,SelectionGraph.edgesWithin,
    SelectionGraph.edgesWithin,same]
  exact re.edges.filter _

theorem memInternal (e : SelectedEdge) : e ∈ g.internalEdges ↔ e ∈ h.internalEdges := re.internalEdges.mem_iff

theorem memTransitions (link : String × String) : link ∈ g.transitions ↔ link ∈ h.transitions :=
  (re.internalEdges.map _).mem_iff

theorem node (distinct : g.nodeIds.Nodup) : g.node? = h.node? := by
  funext id
  refine Option.ext fun n => ?_
  rw [nodeIff distinct,nodeIff (re.nodeIds.nodup_iff.mp distinct),re.nodes.mem_iff]

theorem centred (centred : Centred g central) : Centred h central :=
  ⟨re.nodeIds.nodup_iff.mp centred.distinct,mt (re.memIds "").mpr centred.named,re.central ▸ centred.given,
    (re.memIds central).mp centred.inside⟩

theorem effective (centred : Centred g central) : g.effectiveCentral = h.effectiveCentral := by
  rw [centredEffective centred,centredEffective (re.centred centred)]

theorem shape (centred : Centred g central) : SameShape g h where
  ids := sortedIdsCongr re.memIds
  targets := by
    funext id
    refine sortedIdsCongr fun other => ?_
    rw [re.internal]
    exact ((re.edges.filter _).map _).mem_iff
  sources := by
    funext id
    refine sortedIdsCongr fun other => ?_
    rw [re.internal]
    exact ((re.edges.filter _).map _).mem_iff
  boundary := by
    funext link
    rw [SelectionGraph.isBoundary,SelectionGraph.isBoundary,re.internal]
    exact re.edges.any_eq
  reference := by
    funext id
    rw [SelectionGraph.isReferenceNode,SelectionGraph.isReferenceNode,re.node centred.distinct]
  multiple := by
    funext id
    rw [SelectionGraph.isMultipleNode,SelectionGraph.isMultipleNode,re.node centred.distinct]
  selected := by rw [SelectionGraph.selectedCentral,SelectionGraph.selectedCentral,re.central,re.contains]
  effective := re.effective centred

theorem bridgesAmong (p : SelectedEdge → Bool) (id : String) :
    (Draft.bridgedEdges (g.edges.filter p)).filter (·.target = id) =
      (Draft.bridgedEdges (h.edges.filter p)).filter (·.target = id) := by
  have last : ∀ edges : List SelectedEdge, (Draft.bridgedEdges (edges.filter p)).filter (·.target = id) =
      ((Draft.bridgedEdges edges).filter (·.target = id)).filter p := by
    intro edges
    rw [List.filter_comm,Draft.bridgedEdges,Draft.bridgedEdges,List.filter_comm p]
  rw [last,last,re.bridges]

theorem bridgesInto (id : String) : (Draft.bridgedEdges g.internalEdges).filter (·.target = id) =
    (Draft.bridgedEdges h.internalEdges).filter (·.target = id) := by
  have same : g.isInternal = h.isInternal := re.internal
  have bridges := re.bridgesAmong g.isInternal id
  rwa [show h.edges.filter g.isInternal = h.internalEdges by rw [same]; rfl] at bridges

theorem restrict {ids others : List String} (same : ∀ id, id ∈ ids ↔ id ∈ others) :
    Reordered (g.restrict ids) (h.restrict others) := by
  have alike : ids.contains = others.contains := by
    funext id
    rw [Bool.eq_iff_iff,List.contains_iff_mem,List.contains_iff_mem,same]
  have nodes : (fun n : SelectedNode => others.contains n.id) = fun n => ids.contains n.id :=
    funext fun n => (congrFun alike n.id).symm
  have edges : (fun e : SelectedEdge => others.contains e.source && others.contains e.target) =
      fun e => ids.contains e.source && ids.contains e.target :=
    funext fun e => congrArg₂ and (congrFun alike e.source).symm (congrFun alike e.target).symm
  unfold SelectionGraph.restrict SelectionGraph.edgesWithin
  rw [nodes,edges,← alike]
  exact ⟨re.nodes.filter _,re.edges.filter _,re.bridgesAmong _,re.central,congrArg (List.filter _) re.count⟩

theorem withCentral (id : String) : Reordered (g.withCentral id) (h.withCentral id) :=
  ⟨re.nodes,re.edges,re.bridges,rfl,re.count⟩

end Reordered

end PathQuery
