import PathQuery.Outline
import PathQuery.Proofs.Order.Selection
import PathQuery.Proofs.Traversal.Search

/-! The outline goes along lists of far ends with repeats, the closures along sets of neighbours. A search that
skips what it has seen finds the same over both. -/
namespace PathQuery

theorem sortedOnce (ids : List String) :
    (sortBy (fun a b => decide (a ≤ b)) ids).eraseDups = sortedIds ids := by
  have sorted : (sortBy (fun a b => decide (a ≤ b)) ids).Pairwise (· ≤ ·) := by
    rw [sortBySorts]
    simpa using List.pairwise_insertionSort (· ≤ ·) ids
  have increasing : (sortBy (fun a b => decide (a ≤ b)) ids).eraseDups.Pairwise (· < ·) :=
    (sorted.sublist (eraseDupsSublist _)).imp₂ (fun _ _ le ne => lt_of_le_of_ne le ne) (eraseDupsNodup _)
  exact increasing.eq_of_mem_iff (sortedIdsIncreasing ids) fun id => by
    rw [List.mem_eraseDups,memSortBy,memSortedIds]

namespace Breadth

variable {α : Type}

theorem claimSkips {id : String} {unseen : List String} (seen : id ∉ unseen) (candidates : List (String × α)) :
    claim unseen (candidates.filter fun c => c.1 != id) = claim unseen candidates := by
  fun_induction claim unseen candidates with
  | case1 unseen => rfl
  | case2 unseen candidate rest fresh found ih =>
      have other : candidate.1 ≠ id := fun same => seen (same ▸ fresh)
      rw [List.filter_cons_of_pos (by simpa using other),claim,if_pos fresh,
        ih fun left => seen (List.mem_of_mem_erase left)]
  | case3 unseen candidate rest old ih =>
      rw [List.filter_cons]
      split
      · rw [claim,if_neg old,ih seen]
      · exact ih seen

theorem claimOnce (label : α) : ∀ {unseen : List String}, unseen.Nodup → ∀ ids : List String,
    claim unseen (ids.eraseDups.map (·,label)) = claim unseen (ids.map (·,label))
  | _,_,[] => rfl
  | unseen,distinct,id :: rest => by
      have skipped : ∀ {left : List String}, left.Nodup → id ∉ left →
          claim left ((rest.filter (· != id)).eraseDups.map (·,label)) = claim left (rest.map (·,label)) := by
        intro left once gone
        rw [claimOnce label once (rest.filter (· != id)),← claimSkips gone (rest.map (·,label)),List.filter_map]
        rfl
      simp only [List.eraseDups_cons,List.map_cons,claim]
      by_cases fresh : id ∈ unseen
      · simp only [if_pos fresh]
        exact congrArg (fun f => ((id,label) :: f.1,f.2)) (skipped (distinct.erase id) distinct.not_mem_erase)
      · simp only [if_neg fresh]
        exact skipped distinct fresh
termination_by _ _ ids => ids.length
decreasing_by exact Nat.lt_succ_of_le (List.length_filter_le _ _)

variable {next other : String → α → List (String × α)}

theorem growAlike (alike : ∀ unseen, unseen.Nodup → ∀ id label,
    claim unseen (next id label) = claim unseen (other id label)) {unseen : List String}
    (distinct : unseen.Nodup) (queue : List (String × α)) : grow next unseen queue = grow other unseen queue := by
  fun_induction grow next unseen queue with
  | case1 unseen => simp [grow]
  | case2 unseen node queue found grown ih =>
      have left : found.2.Nodup :=
        (List.nodup_append.mp ((claimPerm unseen (next node.1 node.2)).nodup_iff.mpr distinct)).2.1
      have same : found = claim unseen (other node.1 node.2) := alike unseen distinct node.1 node.2
      simp only [grow,← same,← ih left,grown]

theorem forestAlike (alike : ∀ unseen, unseen.Nodup → ∀ id label,
    claim unseen (next id label) = claim unseen (other id label)) {unseen : List String}
    (distinct : unseen.Nodup) (groups : List (List (String × α))) :
    forest next unseen groups = forest other unseen groups := by
  fun_induction forest next unseen groups with
  | case1 unseen => rfl
  | case2 unseen seeds groups found grown ih =>
      have shared := (@groupPerm _ next unseen seeds).nodup_iff.mpr distinct
      have seeded : found.2.Nodup :=
        (List.nodup_append.mp ((claimPerm unseen seeds).nodup_iff.mpr distinct)).2.1
      have same : grown = grow other found.2 found.1 := growAlike alike seeded found.1
      rw [forest,ih (List.nodup_append.mp shared).2.1]
      simp only [same,found]

end Breadth

namespace Outline

theorem memEnds {g : SelectionGraph} {v w : String} : w ∈ ends g v ↔ w ∈ g.neighboursOf v := by
  simp only [ends,SelectionGraph.memNeighboursOf,SelectionGraph.memTransitions,List.mem_flatMap,List.mem_append,
    SelectionGraph.memInternalEdges,List.mem_ite_nil_right,List.mem_singleton]
  constructor
  · rintro ⟨e,⟨member,source,target⟩,⟨rfl,rfl⟩ | ⟨rfl,rfl⟩⟩
    · exact .inl ⟨e,member,rfl,rfl,source,target⟩
    · exact .inr ⟨e,member,rfl,rfl,source,target⟩
  · rintro (⟨e,member,rfl,rfl,source,target⟩ | ⟨e,member,rfl,rfl,source,target⟩)
    · exact ⟨e,⟨member,source,target⟩,.inl ⟨rfl,rfl⟩⟩
    · exact ⟨e,⟨member,source,target⟩,.inr ⟨rfl,rfl⟩⟩

theorem endsOnce (g : SelectionGraph) (id : String) :
    (sortBy (fun a b => decide (a ≤ b)) (ends g id)).eraseDups = g.neighboursOf id := by
  rw [sortedOnce]
  refine (sortedIdsIncreasing _).eq_of_mem_iff (sortedIdsIncreasing _) fun other => ?_
  rw [memSortedIds,memEnds]

theorem stepsAlike (g : SelectionGraph) (unseen : List String) (distinct : unseen.Nodup) (id : String)
    (label : Option String) :
    Breadth.claim unseen (steps g id label) = Breadth.claim unseen (g.treeSteps id label) := by
  rw [steps,SelectionGraph.treeSteps,← endsOnce]
  exact (Breadth.claimOnce (some id) distinct _).symm

theorem foundAlike (g : SelectionGraph) : found g =
    Breadth.forest g.treeSteps (sortedIds g.nodeIds) (((rootOf g).toList ++ sortedIds g.nodeIds).map fun id =>
      [(id,none)]) :=
  Breadth.forestAlike (stepsAlike g) (sortedIdsNodup _) _

end Outline

end PathQuery
