import PathQuery.Proofs.Count.Partition
import PathQuery.Proofs.Outline.Nesting
import PathQuery.Proofs.Outline.Repeats

/-! The closures of what is counted are parts of the outline. -/
namespace PathQuery

namespace Breadth

theorem forestApart {next : String → Option String → Tree}
    (linked : ∀ id label, ∀ child ∈ next id label, child.2 = some id) {taken unseen : List String}
    (apart : unseen.Disjoint taken) {groups : List Tree}
    (seeded : ∀ seeds ∈ groups, ∀ seed ∈ seeds, seed.2 = none) :
    ∀ link ∈ forest next unseen groups, ∀ parent, link.2 = some parent → parent ∉ taken := by
  fun_induction forest next unseen groups with
  | case1 unseen => exact List.forall_mem_nil _
  | case2 unseen seeds groups found grown ih =>
      have here : ∀ link ∈ grown.1, link.1 ∈ unseen ∧ ∀ parent, link.2 = some parent → parent ∉ taken := by
        refine growAll (P := fun id label => id ∈ unseen ∧ ∀ parent, label = some parent → parent ∉ taken) ?_ ?_
        · intro seed claimed
          obtain ⟨member,fresh⟩ := claimMem claimed
          rw [seeded seeds List.mem_cons_self seed member]
          exact ⟨fresh,fun _ none => absurd none (by simp)⟩
        · rintro id label ⟨there,-⟩ child step fresh
          rw [linked id label child step]
          refine ⟨claimLeft fresh,fun parent same => ?_⟩
          cases same
          exact apart there
      intro link member
      rcases List.mem_append.mp member with member | later
      · exact (here link member).2
      · refine ih (fun id left => ?_) (fun seeds member => seeded seeds (List.mem_cons_of_mem _ member)) link later
        exact apart ((groupPerm unseen seeds).mem_iff.mp (List.mem_append_right _ left))

end Breadth

namespace Outline

variable {g : SelectionGraph} {central : String}

theorem foundCentral (centred : Centred g central) :
    ∃ rest, found g = g.centralTree ++ rest ∧
      ∀ link ∈ rest, ∀ parent, link.2 = some parent → parent ∉ g.centralTree.ids := by
  have selected : g.selectedCentral = some central := by
    rw [SelectionGraph.selectedCentral,centred.given,Option.filter_some,if_pos]
    simpa [SelectionGraph.contains] using centred.inside
  let claimed := Breadth.claim (sortedIds g.nodeIds) [(central,(none : Option String))]
  have tree : g.centralTree = (Breadth.grow g.treeSteps claimed.2 claimed.1).1 := by
    simp [SelectionGraph.centralTree,centredEffective centred,SelectionGraph.treeFrom,Breadth.forest,claimed]
  rw [foundAlike,rootOf,selected,tree]
  refine ⟨_,rfl,Breadth.forestApart ?_ ?_ ?_⟩
  · intro id _ child step
    obtain ⟨_,_,rfl⟩ := List.mem_map.mp step
    rfl
  · have shared := @Breadth.groupPerm _ g.treeSteps (sortedIds g.nodeIds) [(central,none)]
    exact List.disjoint_symm (List.disjoint_of_nodup_append (shared.nodup_iff.mpr (sortedIdsNodup g.nodeIds)))
  · intro seeds member seed there
    obtain ⟨id,_,rfl⟩ := List.mem_map.mp member
    rw [List.mem_singleton.mp there]

theorem entryNamed (g : SelectionGraph) (o : OutlineOptions) (id : String) : (entryOf g o id).id = id := rfl

theorem centralWhole (centred : Centred g central) (o : OutlineOptions) :
    ∃ whole others, (ofGraph g o).trees = whole :: others ∧ whole.entry.id = central ∧
      whole.Spans g.centralTree ∧ whole ∈ (nest (entryOf g o) g.centralTree).all := by
  have hung := CountClosures.centralHung (centredEffective centred)
  obtain ⟨rest,found,apart⟩ := foundCentral centred
  obtain ⟨whole,waits,same⟩ := treeWaits (entryNamed g o) hung
  have listed := waitingListed (w := (none,whole)) (waits ▸ List.mem_singleton_self _)
  refine ⟨whole,(nest (entryOf g o) rest).waiting.map (·.2),?_,same,?_,listed⟩
  · simp [ofGraph,found,nestJoined apart,waits]
  · exact nestSpans (entryNamed g o) (Tree.hungTrailing hung) listed

end Outline

open OutlineTree in
/-- What is counted with a node is the part of the outline that the node stands at the top of, and the pattern
that it is counted for is the one of the node right above it. -/
theorem closuresAgree {g : SelectionGraph} {central k : String} (centred : Centred g central) (counted : k ∈ g.count)
    (connected : g.Reaches central k) (o : OutlineOptions) :
    ∃ whole others top members, (Outline.ofGraph g o).trees = whole :: others ∧ whole.entry.id = central ∧
      (∀ id, (∃ part, Within part whole ∧ part.entry.id = id) ↔ g.Reaches central id) ∧
      (∀ part, Within part whole ∧ part.entry.id = k ↔ part = top) ∧
      (CountClosures.ofGraph g).members.find? k = some members ∧
      (∀ id, id ∈ members ↔ ∃ part, Within part top ∧ part.entry.id = id) ∧
      ∀ id, (CountClosures.ofGraph g).parents.find? k = some id ↔
        ∃ above, Within above whole ∧ above.entry.id = id ∧ top ∈ above.children := by
  have given := centredEffective centred
  have hung := CountClosures.centralHung given
  obtain ⟨whole,others,trees,same,spans,listed⟩ := Outline.centralWhole centred o
  have reached : ∀ id, (∃ part, Within part whole ∧ part.entry.id = id) ↔ g.Reaches central id := by
    intro id
    rw [partIff spans,same,← CountClosures.centralReaches given]
    exact ⟨Tree.belowThere (Tree.rootThere hung),Tree.belowRoot hung⟩
  have once : ∀ {one other}, Within one whole → Within other whole → one.entry.id = other.entry.id →
      one = other := by
    intro one other inside there alike
    have ids := Outline.listedIds (Outline.entryNamed g o) g.centralTree
    exact List.inj_on_of_nodup_map (ids ▸ Tree.hungNodup hung) (Outline.partListed listed inside)
      (Outline.partListed listed there) alike
  obtain ⟨top,inside,named⟩ := (reached k).mpr connected
  obtain ⟨members,recorded⟩ := ((CountClosures.closuresCut given).recorded k).mpr ⟨counted,connected⟩
  refine ⟨whole,others,top,members,trees,same,reached,fun part => ⟨?_,?_⟩,recorded,fun id => ?_,fun id => ?_⟩
  · rintro ⟨there,alike⟩
    exact once there inside (alike.trans named.symm)
  · rintro rfl
    exact ⟨inside,named⟩
  · rw [CountClosures.memClosure given recorded,← named]
    exact (partIff fun part lower => spans part (withinTrans lower inside)).symm
  · rw [CountClosures.parentFound given recorded]
    constructor
    · intro link
      obtain ⟨above,there,rfl⟩ := (partIff spans).mpr (same ▸ Tree.belowRoot hung (Tree.parentThere hung link).1)
      obtain ⟨child,hangs,alike⟩ := (childLinked spans there).mpr link
      cases once (withinChild there hangs) inside (alike.trans named.symm)
      exact ⟨above,there,rfl,hangs⟩
    · rintro ⟨above,there,rfl,hangs⟩
      exact (childLinked spans there).mp ⟨top,hangs,named⟩

def tiedThings : SelectionGraph :=
  { nodes := ["d","c","b","a"].map fun id => ⟨id,id,none⟩
    edges := [⟨"a","b",.null,false⟩,⟨"c","d",.null,false⟩,⟨"d","b",.null,false⟩,⟨"c","a",.null,false⟩,
      ⟨"a","b",.null,true⟩,⟨"d","d",.null,false⟩]
    central := some "a"
    count := ["b","c"] }

open OutlineTree in
theorem tiedThingsAgree : ∃ whole others top,
    (Outline.ofGraph tiedThings ⟨[],false,false⟩).trees = whole :: others ∧ top.Within whole ∧ top.entry.id = "b" ∧
      (CountClosures.ofGraph tiedThings).members.find? "b" = some ["b","d"] ∧
      (∀ id, id ∈ ["b","d"] ↔ ∃ part, Within part top ∧ part.entry.id = id) ∧
      ∃ above, Within above whole ∧ above.entry.id = "a" ∧ top ∈ above.children := by
  have centred : Centred tiedThings "a" := ⟨by decide +kernel,by decide +kernel,rfl,by decide +kernel⟩
  have connected : tiedThings.Reaches "a" "b" := ⟨_,.step .stay (by decide +kernel)⟩
  have recorded : (CountClosures.ofGraph tiedThings).members.find? "b" = some ["b","d"] := by decide +kernel
  have parent : (CountClosures.ofGraph tiedThings).parents.find? "b" = some "a" := by decide +kernel
  obtain ⟨whole,others,top,members,trees,_,_,only,found,same,above⟩ :=
    closuresAgree centred (by decide +kernel) connected ⟨[],false,false⟩
  cases recorded.symm.trans found
  obtain ⟨inside,named⟩ := (only top).mpr rfl
  exact ⟨whole,others,top,trees,inside,named,recorded,same,(above "a").mp parent⟩

end PathQuery
