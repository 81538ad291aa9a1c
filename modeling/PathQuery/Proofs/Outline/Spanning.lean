import PathQuery.Proofs.Outline.Places
import PathQuery.Proofs.Outline.Repeats
import PathQuery.Proofs.Traversal.Frontier

/-! The outline is a forest of shortest ways: a tree for each connected part of the selection, in which each node
stands as deep as it is far from the root. -/
namespace PathQuery

namespace Breadth

theorem claimSublist {α : Type} (unseen : List String) (candidates : List (String × α)) :
    (claim unseen candidates).1.Sublist candidates := by
  fun_induction claim unseen candidates with
  | case1 unseen => exact .slnil
  | case2 unseen candidate rest fresh found ih => exact ih.cons_cons candidate
  | case3 unseen candidate rest seen ih => exact ih.cons candidate

end Breadth

namespace Tree

def Rising (tree : Tree) : Prop :=
  tree.Pairwise fun a b => ∀ parent, a.2 = some parent → b.2 = some parent → a.1 < b.1

end Tree

namespace SelectionGraph
open Breadth
open PathQuery.Tree (ids Hung Rising)

variable {g : SelectionGraph} {root v : String}

def FoundFrom (g : SelectionGraph) (root v : String) : Option String → Prop
  | none => v = root
  | some parent => g.undirected.Adj v parent ∧ g.undirected.Reachable v root ∧
      g.undirected.dist v root = g.undirected.dist parent root + 1

theorem memTreeSteps {label : Option String} {child : String × Option String} :
    child ∈ g.treeSteps v label ↔ ((v,child.1) ∈ g.transitions ∨ (child.1,v) ∈ g.transitions) ∧ child.2 = some v := by
  obtain ⟨u,parent⟩ := child
  simp only [treeSteps,List.mem_map,Prod.mk.injEq,memNeighboursOf]
  constructor
  · rintro ⟨_,link,rfl,same⟩
    exact ⟨link,same.symm⟩
  · rintro ⟨link,same⟩
    exact ⟨u,link,rfl,same.symm⟩

theorem treeStepAdj {label : Option String} {child : String × Option String} (step : child ∈ g.treeSteps v label)
    (apart : child.1 ≠ v) : g.undirected.Adj child.1 v :=
  undirectedAdj.mpr ⟨apart,(memTreeSteps.mp step).1.symm⟩

theorem treesOutward (g : SelectionGraph) (root : String) : Outward g root g.treeSteps (g.FoundFrom root) where
  beside := treeStepAdj
  every := fun adj _ => ⟨_,memTreeSteps.mpr ⟨(undirectedAdj.mp adj).2.symm,rfl⟩⟩
  linked := by
    rintro v (_ | parent) fits
    · exact fits ▸ .refl v
    · exact fits.2.1
  further := by
    intro v label child fits step further
    have apart : child.1 ≠ v := fun same => absurd (same ▸ further) (Nat.ne_of_lt (Nat.lt_succ_self _))
    have adj := treeStepAdj step apart
    have linked : g.undirected.Reachable v root := by
      cases label with
      | none => exact fits ▸ .refl v
      | some parent => exact fits.2.1
    rw [(memTreeSteps.mp step).2]
    exact ⟨adj,adj.reachable.trans linked,further⟩

theorem risingGrow {unseen : List String} {queue : Tree} :
    ∀ front, (ids (front ++ queue) ++ unseen).Nodup →
      (∀ link ∈ front ++ queue, ∀ parent, link.2 = some parent → parent ∈ ids front) →
      Rising (front ++ queue) → Rising (front ++ (grow g.treeSteps unseen queue).1) := by
  fun_induction grow g.treeSteps unseen queue with
  | case1 unseen => exact fun _ _ _ rising => rising
  | case2 unseen node queue found grown ih =>
      intro front once grounded rising
      have shared := claimPerm unseen (g.treeSteps node.1 node.2)
      have later : ∀ child ∈ found.1, child.2 = some node.1 := fun child claimed =>
        (memTreeSteps.mp (claimMem claimed).1).2
      have shifted : front ++ [node] ++ (queue ++ found.1) = front ++ node :: queue ++ found.1 := by simp
      have listed : ∀ link ∈ front ++ node :: queue, ∀ parent, link.2 = some parent → parent ∈ ids (front ++ [node]) :=
        fun link there parent label =>
          Tree.idsJoined front [node] ▸ List.mem_append_left _ (grounded link there parent label)
      have whole := ih (front ++ [node]) ?_ ?_ ?_
      · simpa [grown] using whole
      · rw [shifted,Tree.idsJoined,List.append_assoc]
        exact ((shared.append_left _).nodup_iff).mpr once
      · rw [shifted]
        intro link there parent label
        rcases List.mem_append.mp there with old | claimed
        · exact listed link old parent label
        · cases (later link claimed).symm.trans label
          simp [ids]
      · rw [shifted]
        refine List.pairwise_append.mpr ⟨rising,?_,?_⟩
        · have sorted : (g.treeSteps node.1 node.2).Pairwise fun a b => a.1 < b.1 :=
            List.pairwise_map.mpr (sortedIdsIncreasing _)
          exact (sorted.sublist (claimSublist _ _)).imp fun less _ _ _ => less
        · intro old there child claimed parent label same
          cases (later child claimed).symm.trans same
          have fresh : node.1 ∉ ids front := by
            have := (List.nodup_append.mp once).1
            rw [Tree.idsJoined] at this
            exact fun there => (List.nodup_append.mp this).2.2 _ there _ List.mem_cons_self rfl
          exact absurd (grounded old there _ label) fresh

theorem rootGrown {unseen : List String} (once : unseen.Nodup) :
    Hung g root (grow g.treeSteps (unseen.erase root) [(root,none)]).1 ∧
      Rising (grow g.treeSteps (unseen.erase root) [(root,none)]).1 := by
  have fresh : ∀ id ∈ unseen.erase root, id ∉ ids [(root,none)] := by
    intro id member placed
    cases List.mem_singleton.mp placed
    exact once.not_mem_erase member
  refine ⟨hungGrow (once.erase root) [] .root fresh,risingGrow [] ?_ ?_ (List.pairwise_singleton _ _)⟩
  · exact List.nodup_cons.mpr ⟨once.not_mem_erase,once.erase root⟩
  · intro link there parent label
    cases List.mem_singleton.mp there
    nomatch label

end SelectionGraph

namespace Outline
open Breadth SelectionGraph
open PathQuery.Tree (Hung Rising)

structure Spanning (g : SelectionGraph) (outline : Outline) : Prop where
  once : (outline.nodes.map (·.entry.id)).Nodup
  every : ∀ id, id ∈ outline.nodes.map (·.entry.id) ↔ id ∈ g.nodeIds
  placed : (outline.trees.flatMap (·.parts)).Perm outline.nodes
  rooted : ∀ v ∈ g.nodeIds, ∃! root, root ∈ outline.trees.map (·.entry.id) ∧ g.undirected.Reachable v root
  root : ∀ id, outline.root = some id ↔ id ∈ g.nodeIds ∧
    (g.central = some id ∨ (∀ central, g.central = some central → central ∉ g.nodeIds) ∧ ∀ v ∈ g.nodeIds, id ≤ v)
  order : ∃ rest, outline.trees.map (·.entry.id) = outline.root.toList ++ rest ∧ rest.Pairwise (· < ·) ∧
    ∀ id ∈ rest, ∀ v, g.undirected.Reachable v id → id ≤ v
  hangs : ∀ tree ∈ outline.trees, ∀ place ∈ tree.places 0,
    g.undirected.Reachable place.2.entry.id tree.entry.id ∧
      place.1 = g.undirected.dist place.2.entry.id tree.entry.id ∧
      (∀ child ∈ place.2.children, g.undirected.Adj child.entry.id place.2.entry.id) ∧
      (place.2.children.map (·.entry.id)).Pairwise (· < ·)

variable {g : SelectionGraph}

theorem headLeast {ids : List String} {id : String} :
    (sortedIds ids).head? = some id ↔ id ∈ ids ∧ ∀ v ∈ ids, id ≤ v := by
  have sorted := sortedIdsIncreasing ids
  simp only [← @memSortedIds _ ids]
  cases listed : sortedIds ids with
  | nil => simp
  | cons first rest =>
      rw [listed] at sorted
      have behind := (List.pairwise_cons.mp sorted).1
      rw [List.head?_cons,Option.some.injEq]
      constructor
      · rintro rfl
        exact ⟨List.mem_cons_self,List.forall_mem_cons.mpr ⟨le_refl _,fun v later => le_of_lt (behind v later)⟩⟩
      · rintro ⟨there,least⟩
        rcases List.mem_cons.mp there with rfl | later
        · rfl
        · exact absurd (least first List.mem_cons_self) (not_le.mpr (behind id later))

theorem rootIff (g : SelectionGraph) (id : String) : rootOf g = some id ↔ id ∈ g.nodeIds ∧
    (g.central = some id ∨ (∀ central, g.central = some central → central ∉ g.nodeIds) ∧ ∀ v ∈ g.nodeIds, id ≤ v) := by
  have inside : ∀ {id}, g.contains id = true ↔ id ∈ g.nodeIds := by simp [SelectionGraph.contains]
  cases selected : g.selectedCentral with
  | some central =>
      obtain ⟨given,there⟩ := Option.filter_eq_some_iff.mp selected
      rw [inside] at there
      simp only [rootOf,selected,given,Option.some.injEq,forall_eq']
      constructor
      · rintro rfl
        exact ⟨there,.inl rfl⟩
      · rintro ⟨_,same | ⟨outside,_⟩⟩
        · exact same
        · exact absurd there outside
  | none =>
      have outside : ∀ central, g.central = some central → central ∉ g.nodeIds := fun central given there =>
        absurd (inside.mpr there) (Option.filter_eq_none_iff.mp selected central given)
      simp only [rootOf,selected,headLeast]
      constructor
      · rintro ⟨there,least⟩
        exact ⟨there,.inr ⟨outside,least⟩⟩
      · rintro ⟨there,given | ⟨-,least⟩⟩
        · exact absurd there (outside id given)
        · exact ⟨there,least⟩

structure GrownPart (g : SelectionGraph) (part : String × Tree) : Prop where
  whole : Part g part.1 (g.FoundFrom part.1) part.2
  hung : Hung g part.1 part.2
  rising : Rising part.2

theorem leastParts {unseen : List String} (once : unseen.Nodup) (walled : Walled g unseen)
    (inside : ∀ id ∈ unseen, id ∈ sortedIds g.nodeIds) : ∃ parts : List (String × Tree),
      forest g.treeSteps unseen ((sortedIds g.nodeIds).map fun id => [(id,none)]) = parts.flatMap Prod.snd ∧
      (parts.map Prod.fst).Pairwise (· < ·) ∧
      (∀ id ∈ parts.map Prod.fst, ∀ v, g.undirected.Reachable v id → id ≤ v) ∧
      ∀ part ∈ parts, GrownPart g part := by
  have sorted := sortedIdsIncreasing g.nodeIds
  have start : ∀ root, g.FoundFrom root root none := fun _ => rfl
  obtain ⟨parts,split,listed,each⟩ := forestParts (fun root found => Hung g root found ∧ Rising found) (treesOutward g)
    start (fun _ once _ _ => rootGrown once) (sortedIds g.nodeIds) once walled
  refine ⟨parts,split,sorted.sublist listed,?_,fun part member => ?_⟩
  · intro id there v reachable
    obtain ⟨part,member,rfl⟩ := List.mem_map.mp there
    obtain ⟨whole,-,seen,before,after,ids,apart⟩ := each part member
    obtain ⟨label,found⟩ := whole.whole v reachable
    have listed := inside v (seen _ found)
    rw [ids] at sorted listed
    rcases List.mem_cons.mp ((List.mem_append.mp listed).resolve_left (apart _ found)) with rfl | later
    · exact le_refl _
    · exact le_of_lt ((List.pairwise_cons.mp (List.pairwise_append.mp sorted).2.1).1 v later)
  · obtain ⟨whole,⟨hung,rising⟩,-⟩ := each part member
    exact ⟨whole,hung,rising⟩

theorem foundParts (g : SelectionGraph) : ∃ parts : List (String × Tree), found g = parts.flatMap Prod.snd ∧
    (∃ rest, parts.map Prod.fst = (rootOf g).toList ++ rest ∧ rest.Pairwise (· < ·) ∧
      ∀ id ∈ rest, ∀ v, g.undirected.Reachable v id → id ≤ v) ∧
    ∀ part ∈ parts, GrownPart g part := by
  have once := sortedIdsNodup g.nodeIds
  have walled := walledIds g
  rw [foundAlike]
  cases given : rootOf g with
  | none =>
      obtain ⟨parts,split,sorted,least,each⟩ := leastParts once walled fun _ => id
      exact ⟨parts,split,⟨_,rfl,sorted,least⟩,each⟩
  | some root =>
      have there : root ∈ sortedIds g.nodeIds := memSortedIds.mpr ((rootIff g root).mp given).1
      have shared := rootedPerm g.treeSteps none there
      have start : g.FoundFrom root root none := rfl
      obtain ⟨whole,left⟩ := grownPart (treesOutward g root) start once walled there
      have grown : Hung g root _ ∧ Rising _ := rootGrown once
      obtain ⟨parts,split,sorted,least,each⟩ := leastParts (List.nodup_append.mp (shared.nodup_iff.mpr once)).2.1 left
        fun id there => shared.mem_iff.mp (List.mem_append_right _ there)
      refine ⟨(root,_) :: parts,?_,⟨_,rfl,sorted,least⟩,List.forall_mem_cons.mpr ⟨⟨whole,grown.1,grown.2⟩,each⟩⟩
      rw [Option.toList_some,List.singleton_append,forestSeed,if_pos there,split,List.flatMap_cons]

theorem nestParts {entry : String → OutlineEntry} (named : ∀ id, (entry id).id = id) {parts : List (String × Tree)}
    (once : (Tree.ids (parts.flatMap Prod.snd)).Nodup) (hung : ∀ part ∈ parts, Hung g part.1 part.2) :
    ∃ trees : List OutlineTree, (nest entry (parts.flatMap Prod.snd)).waiting = trees.map (none,·) ∧
      trees.map (·.entry.id) = parts.map Prod.fst ∧
      ∀ tree ∈ trees, ∃ part ∈ parts, tree.entry.id = part.1 ∧ tree.Spans part.2 := by
  induction parts with
  | nil => exact ⟨[],rfl,rfl,List.forall_mem_nil _⟩
  | cons part rest ih =>
      rw [List.flatMap_cons,Tree.idsJoined] at once
      obtain ⟨_,later,apart⟩ := List.nodup_append.mp once
      obtain ⟨own,others⟩ := List.forall_mem_cons.mp hung
      obtain ⟨trees,waits,tops,each⟩ := ih later others
      obtain ⟨whole,first,same⟩ := treeWaits named own
      have spans : whole.Spans part.2 := nestSpans named (Tree.hungTrailing own)
        (waitingListed (w := (none,whole)) (first ▸ List.mem_singleton_self _))
      have beside : ∀ link ∈ rest.flatMap Prod.snd, ∀ parent, link.2 = some parent → parent ∉ part.2.ids := by
        rintro ⟨id,_⟩ link parent rfl old
        obtain ⟨other,member,there⟩ := List.mem_flatMap.mp link
        obtain ⟨above,listed,rfl⟩ := List.mem_map.mp (Tree.parentThere (others other member) there).1
        exact apart _ old _ (List.mem_map_of_mem (List.mem_flatMap.mpr ⟨other,member,listed⟩)) rfl
      refine ⟨whole :: trees,?_,by rw [List.map_cons,List.map_cons,tops,same],List.forall_mem_cons.mpr ⟨?_,?_⟩⟩
      · rw [List.flatMap_cons,nestJoined beside,waits,first]
        rfl
      · exact ⟨part,List.mem_cons_self,same,spans⟩
      · intro tree there
        obtain ⟨other,member,found⟩ := each tree there
        exact ⟨other,List.mem_cons_of_mem _ member,found⟩

theorem partOnce {parts : List (String × Tree)} (once : (Tree.ids (parts.flatMap Prod.snd)).Nodup)
    {one other : String × Tree} (here : one ∈ parts) (there : other ∈ parts) {id : String} (own : id ∈ one.2.ids)
    (shared : id ∈ other.2.ids) : one = other := by
  rw [Tree.ids,List.map_flatMap] at once
  have symm : Std.Symm (Function.onFun List.Disjoint fun part : String × Tree => part.2.map Prod.fst) :=
    ⟨fun _ _ disjoint => disjoint.symm⟩
  by_contra different
  exact (List.nodup_flatMap.mp once).2.forall here there different own shared

theorem foundIds (g : SelectionGraph) :
    (Tree.ids (found g)).Nodup ∧ ∀ id, id ∈ Tree.ids (found g) ↔ id ∈ g.nodeIds := by
  have distinct := sortedIdsNodup g.nodeIds
  rw [foundAlike]
  obtain ⟨once,inside⟩ := @forestOnce _ g.treeSteps _ (((rootOf g).toList ++ sortedIds g.nodeIds).map fun id =>
    [(id,none)]) distinct
  refine ⟨once,fun id => ⟨fun there => memSortedIds.mp (inside id there),fun there => ?_⟩⟩
  refine forestCovers distinct (memSortedIds.mpr there) ⟨_,List.mem_map.mpr ⟨id,?_,rfl⟩,by simp⟩
  exact List.mem_append_right _ (memSortedIds.mpr there)

theorem partHangs {part : String × Tree} (grown : GrownPart g part) {tree : OutlineTree}
    (same : tree.entry.id = part.1) (spans : tree.Spans part.2) : ∀ place ∈ tree.places 0,
      g.undirected.Reachable place.2.entry.id tree.entry.id ∧
      place.1 = g.undirected.dist place.2.entry.id tree.entry.id ∧
      (∀ child ∈ place.2.children, g.undirected.Adj child.entry.id place.2.entry.id) ∧
      (place.2.children.map (·.entry.id)).Pairwise (· < ·) := by
  have linked : ∀ {above child : OutlineTree}, above.Within tree → child ∈ above.children →
      g.FoundFrom tree.entry.id child.entry.id (some above.entry.id) := by
    intro above child inside hangs
    rw [same]
    exact grown.whole.placed _ ((OutlineTree.childLinked spans inside).mp ⟨child,hangs,rfl⟩)
  have stands : ∀ place ∈ tree.places 0, place.2.Within tree ∧
      g.undirected.Reachable place.2.entry.id tree.entry.id ∧
      place.1 = g.undirected.dist place.2.entry.id tree.entry.id := by
    refine OutlineTree.placesDown (P := fun depth inner => inner.Within tree ∧
      g.undirected.Reachable inner.entry.id tree.entry.id ∧
      depth = g.undirected.dist inner.entry.id tree.entry.id) ?_ ⟨.whole,.refl _,SimpleGraph.dist_self.symm⟩
    rintro depth above ⟨inside,_,far⟩ child hangs
    obtain ⟨_,reachable,further⟩ := linked inside hangs
    exact ⟨OutlineTree.withinChild inside hangs,reachable,by rw [further,far]⟩
  intro place there
  obtain ⟨inside,reachable,far⟩ := stands place there
  refine ⟨reachable,far,fun child hangs => (linked inside hangs).1,?_⟩
  rw [spans place.2 inside,List.pairwise_map]
  refine (grown.rising.filter _).imp_of_mem fun first second rises => ?_
  exact rises _ (by simpa using (List.mem_filter.mp first).2) (by simpa using (List.mem_filter.mp second).2)

/-- An outline is a forest of shortest ways. -/
theorem ofGraphSpans (g : SelectionGraph) (o : OutlineOptions) : Spanning g (ofGraph g o) := by
  obtain ⟨parts,split,⟨rest,roots,sorted,least⟩,grown⟩ := foundParts g
  obtain ⟨once,every⟩ := foundIds g
  have named : ∀ id, (entryOf g o id).id = id := fun _ => rfl
  have ids := listedIds named (found g)
  obtain ⟨trees,waits,tops,each⟩ := nestParts named (split ▸ once) fun part member => (grown part member).hung
  have nested : (ofGraph g o).trees = trees := by simp [ofGraph,split,waits,Function.comp_def]
  exact
    { once := ids ▸ once
      every := ids ▸ every
      placed := by
        have placed := waitingParts (entryOf g o) (found g)
        rw [nested]
        rwa [split,waits,List.flatMap_map,← split] at placed
      rooted := by
        rw [nested,tops]
        intro v there
        obtain ⟨⟨_,label⟩,listed,rfl⟩ := List.mem_map.mp ((every v).mpr there)
        obtain ⟨part,member,found⟩ := List.mem_flatMap.mp (split ▸ listed)
        have linked := (treesOutward g part.1).linked ((grown part member).whole.placed _ found)
        refine ⟨part.1,⟨List.mem_map_of_mem member,linked⟩,?_⟩
        rintro root ⟨planted,reachable⟩
        obtain ⟨other,beside,rfl⟩ := List.mem_map.mp planted
        obtain ⟨again,twice⟩ := (grown other beside).whole.whole _ reachable
        rw [partOnce (split ▸ once) beside member (Tree.linkIds twice) (Tree.linkIds found)]
      root := rootIff g
      order := ⟨rest,by rw [nested,tops,roots]; rfl,sorted,least⟩
      hangs := by
        rw [nested]
        intro tree there
        obtain ⟨part,member,same,spans⟩ := each tree there
        exact partHangs (grown part member) same spans }

end Outline

end PathQuery
