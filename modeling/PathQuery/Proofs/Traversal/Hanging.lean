import PathQuery.Proofs.Traversal.Search
import PathQuery.Traversal.Closure

/-! The breadth-first tree of a node. Every other node in it hangs from a neighbour that was found before, so
what hangs below a node is one part of the tree, and two such parts lie apart or one within the other. -/
namespace PathQuery

namespace SelectionGraph

def Adjacent (g : SelectionGraph) (v w : String) : Prop := (v,w) ∈ g.transitions ∨ (w,v) ∈ g.transitions

instance (g : SelectionGraph) (v w : String) : Decidable (g.Adjacent v w) := by unfold Adjacent; infer_instance

inductive Way (g : SelectionGraph) (start : String) : String → List String → Prop where
  | stay : Way g start start [start]
  | step {v w : String} {nodes : List String} (before : Way g start v nodes) (link : g.Adjacent v w) :
      Way g start w (nodes ++ [w])

def Reaches (g : SelectionGraph) (start v : String) : Prop := ∃ nodes, g.Way start v nodes

end SelectionGraph

namespace Tree

def ids (tree : Tree) : List String := tree.map Prod.fst

inductive Hung (g : SelectionGraph) (root : String) : Tree → Prop where
  | root : Hung g root [(root,none)]
  | hang {tree : Tree} {parent id : String} (before : Hung g root tree) (there : parent ∈ tree.ids)
      (fresh : id ∉ tree.ids) (link : g.Adjacent parent id) : Hung g root (tree ++ [(id,some parent)])

inductive Below (tree : Tree) (top : String) : String → Prop where
  | here : Below tree top top
  | down {id child : String} (above : Below tree top id) (link : (child,some id) ∈ tree) : Below tree top child

theorem idsJoined (first second : Tree) : ids (first ++ second) = first.ids ++ second.ids := List.map_append

theorem linkIds {tree : Tree} {id : String} {parent : Option String} (link : (id,parent) ∈ tree) :
    id ∈ tree.ids := List.mem_map.mpr ⟨_,link,rfl⟩

theorem containsIff {tree : Tree} {id : String} : tree.contains id = true ↔ id ∈ tree.ids := by
  simp [Tree.contains,ids]

variable {g : SelectionGraph} {root : String} {tree : Tree}

theorem parentThere (hung : Hung g root tree) {id parent : String} (link : (id,some parent) ∈ tree) :
    parent ∈ tree.ids ∧ g.Adjacent parent id := by
  induction hung with
  | root => simp at link
  | @hang tree other new before there fresh adjacent ih =>
      rw [idsJoined]
      rcases List.mem_append.mp link with old | last
      · exact ⟨List.mem_append_left _ (ih old).1,(ih old).2⟩
      · cases List.mem_singleton.mp last
        exact ⟨List.mem_append_left _ there,adjacent⟩

theorem hungNodup (hung : Hung g root tree) : tree.ids.Nodup := by
  induction hung with
  | root => simp [ids]
  | @hang tree parent id before there fresh link ih =>
      rw [idsJoined]
      refine List.nodup_append.mpr ⟨ih,by simp [ids],?_⟩
      intro v old w last same
      have : w = id := by simpa [ids] using last
      exact fresh (this ▸ same ▸ old)

theorem parentIff (hung : Hung g root tree) {id parent : String} :
    tree.parent? id = some parent ↔ (id,some parent) ∈ tree := by
  have once := hungNodup hung
  clear hung
  induction tree with
  | nil => simp [parent?]
  | cons node rest ih =>
      obtain ⟨apart,later⟩ := List.nodup_cons.mp once
      rw [parent?]
      by_cases here : node.1 = id
      · rw [List.find?_cons_of_pos (by simpa using here),Option.bind_some,List.mem_cons]
        constructor
        · intro found
          exact .inl (by rw [← here,← found])
        · intro member
          rcases member with same | member
          · rw [← same]
          · exact absurd (linkIds member) (here ▸ apart)
      · rw [List.find?_cons_of_neg (by simpa using here),List.mem_cons]
        constructor
        · intro found
          exact .inr ((ih later).mp found)
        · intro member
          rcases member with same | member
          · exact absurd (by rw [← same]) here
          · exact (ih later).mpr member

theorem oneParent (hung : Hung g root tree) {id first second : String} (one : (id,some first) ∈ tree)
    (other : (id,some second) ∈ tree) : first = second :=
  Option.some.inj (((parentIff hung).mpr one).symm.trans ((parentIff hung).mpr other))

theorem rootOrParent (hung : Hung g root tree) {id : String} (there : id ∈ tree.ids) :
    id = root ∨ ∃ parent, (id,some parent) ∈ tree := by
  induction hung with
  | root => exact .inl (by simpa [ids] using there)
  | @hang tree parent new before _ _ _ ih =>
      rw [idsJoined] at there
      rcases List.mem_append.mp there with old | last
      · rcases ih old with same | ⟨parent,link⟩
        · exact .inl same
        · exact .inr ⟨parent,List.mem_append_left _ link⟩
      · cases List.mem_singleton.mp last
        exact .inr ⟨parent,by simp⟩

theorem rootThere (hung : Hung g root tree) : root ∈ tree.ids := by
  induction hung with
  | root => simp [ids]
  | hang _ _ _ _ ih => rw [idsJoined]; exact List.mem_append_left _ ih

theorem rootFree (hung : Hung g root tree) {parent : String} : (root,some parent) ∉ tree := by
  intro link
  induction hung with
  | root => simp at link
  | hang before _ fresh _ ih =>
      rcases List.mem_append.mp link with old | last
      · exact ih old
      · cases List.mem_singleton.mp last
        exact fresh (rootThere before)

theorem belowMono {top id : String} {more : Tree} (below : tree.Below top id) : Below (tree ++ more) top id := by
  induction below with
  | here => exact .here
  | down _ link ih => exact .down ih (List.mem_append_left _ link)

theorem belowTrans {top middle id : String} (first : tree.Below top middle) (second : tree.Below middle id) :
    tree.Below top id := by
  induction second with
  | here => exact first
  | down _ link ih => exact .down ih link

theorem belowThere {top id : String} (there : top ∈ tree.ids) (below : tree.Below top id) : id ∈ tree.ids := by
  cases below with
  | here => exact there
  | down _ link => exact linkIds link

theorem belowAbsent (hung : Hung g root tree) {top id : String} (absent : top ∉ tree.ids)
    (below : tree.Below top id) : id = top := by
  induction below with
  | here => rfl
  | down _ link ih => exact absurd (ih ▸ (parentThere hung link).1) absent

theorem belowHang (hung : Hung g root tree) {parent new : String} (there : parent ∈ tree.ids)
    (fresh : new ∉ tree.ids) {top id : String} :
    Below (tree ++ [(new,some parent)]) top id ↔ tree.Below top id ∨ id = new ∧ tree.Below top parent := by
  constructor
  · intro below
    induction below with
    | here => exact .inl .here
    | @down above child _ link ih =>
        rcases List.mem_append.mp link with old | last
        · rcases ih with below | ⟨same,_⟩
          · exact .inl (.down below old)
          · exact absurd (same ▸ (parentThere hung old).1) fresh
        · cases List.mem_singleton.mp last
          rcases ih with below | ⟨same,_⟩
          · exact .inr ⟨rfl,below⟩
          · exact absurd (same ▸ there) fresh
  · intro below
    rcases below with below | ⟨same,below⟩
    · exact belowMono below
    · subst same
      exact .down (belowMono below) (by simp)

theorem memSubtree (hung : Hung g root tree) {top id : String} :
    id ∈ tree.subtree top ↔ top ∈ tree.ids ∧ tree.Below top id := by
  induction hung generalizing id with
  | root =>
      have alone : Below [(root,none)] top id ↔ id = top := by
        constructor
        · intro below
          cases below with
          | here => rfl
          | down _ link => simp at link
        · intro same
          exact same ▸ .here
      rw [alone]
      by_cases same : root = top
      · simp [subtree,ids,same]
      · simp [subtree,ids,same,Ne.symm same]
  | @hang tree parent new before there fresh _ ih =>
      have step : subtree (tree ++ [(new,some parent)]) top =
          if new = top ∨ parent ∈ tree.subtree top then tree.subtree top ++ [new] else tree.subtree top := by
        simp [subtree,List.foldl_append]
      have taken : id ∈ subtree (tree ++ [(new,some parent)]) top ↔
          id ∈ tree.subtree top ∨ id = new ∧ (new = top ∨ parent ∈ tree.subtree top) := by
        rw [step]
        split <;> simp_all
      rw [taken,ih,ih,belowHang before there fresh,idsJoined,List.mem_append]
      have last : top ∈ ids [(new,some parent)] ↔ top = new := by simp [ids]
      rw [last]
      constructor
      · intro inside
        rcases inside with ⟨old,below⟩ | ⟨rfl,rfl | ⟨old,below⟩⟩
        · exact ⟨.inl old,.inl below⟩
        · exact ⟨.inr rfl,.inl .here⟩
        · exact ⟨.inl old,.inr ⟨rfl,below⟩⟩
      · intro ⟨placed,inside⟩
        rcases placed with old | rfl
        · rcases inside with below | ⟨rfl,below⟩
          · exact .inl ⟨old,below⟩
          · exact .inr ⟨rfl,.inr ⟨old,below⟩⟩
        · rcases inside with below | ⟨rfl,_⟩
          · exact .inr ⟨belowAbsent before fresh below,.inl rfl⟩
          · exact .inr ⟨rfl,.inl rfl⟩

theorem belowRoot (hung : Hung g root tree) {id : String} (there : id ∈ tree.ids) : tree.Below root id := by
  induction hung generalizing id with
  | root =>
      have : id = root := by simpa [ids] using there
      exact this ▸ .here
  | hang before parent fresh _ ih =>
      rw [idsJoined] at there
      rcases List.mem_append.mp there with old | last
      · exact belowMono (ih old)
      · cases List.mem_singleton.mp last
        exact (belowHang before parent fresh).mpr (.inr ⟨rfl,ih parent⟩)

theorem parentAbove (hung : Hung g root tree) {id parent : String} (link : (id,some parent) ∈ tree) :
    ¬ tree.Below id parent := by
  induction hung generalizing id parent with
  | root => simp at link
  | @hang tree other new before there fresh _ ih =>
      intro below
      rcases List.mem_append.mp link with old | last
      · rcases (belowHang before there fresh).mp below with below | ⟨same,_⟩
        · exact ih old below
        · exact fresh (same ▸ (parentThere before old).1)
      · cases List.mem_singleton.mp last
        rcases (belowHang before there fresh).mp below with below | ⟨same,_⟩
        · exact fresh (belowAbsent before fresh below ▸ there)
        · exact fresh (same ▸ there)

theorem belowEither (hung : Hung g root tree) {first second id : String} (one : tree.Below first id)
    (other : tree.Below second id) : tree.Below first second ∨ tree.Below second first := by
  induction one with
  | here => exact .inr other
  | @down above child way link ih =>
      cases other with
      | here => exact .inl (.down way link)
      | down further again =>
          cases oneParent hung link again
          exact ih further

theorem belowParent (hung : Hung g root tree) {top id parent : String} (link : (id,some parent) ∈ tree)
    (below : tree.Below top id) : id = top ∨ tree.Below top parent := by
  cases below with
  | here => exact .inl rfl
  | down above again => exact .inr (oneParent hung again link ▸ above)

theorem belowWay (hung : Hung g root tree) {top id : String} (below : tree.Below top id) :
    ∃ nodes, g.Way top id nodes ∧ ∀ n ∈ nodes, tree.Below n id := by
  induction below with
  | here => exact ⟨_,.stay,fun n member => List.mem_singleton.mp member ▸ .here⟩
  | @down above child _ link ih =>
      obtain ⟨nodes,way,each⟩ := ih
      refine ⟨_,.step way (parentThere hung link).2,fun n member => ?_⟩
      rcases List.mem_append.mp member with earlier | last
      · exact .down (each n earlier) link
      · exact List.mem_singleton.mp last ▸ .here

end Tree

namespace SelectionGraph
open Breadth PathQuery.Tree

variable {g : SelectionGraph} {root : String}

theorem memAdjacent {v w : String} : w ∈ g.neighboursOf v ↔ g.Adjacent v w := memNeighboursOf

theorem hungClaim {parent : String} {unseen : List String} (distinct : unseen.Nodup)
    {candidates : List (String × Option String)}
    (linked : ∀ node ∈ candidates, node.2 = some parent ∧ g.Adjacent parent node.1) :
    ∀ {tree : Tree}, Hung g root tree → parent ∈ tree.ids → (∀ id ∈ unseen, id ∉ tree.ids) →
      Hung g root (tree ++ (claim unseen candidates).1) ∧
        ∀ id ∈ (claim unseen candidates).2, id ∉ ids (tree ++ (claim unseen candidates).1) := by
  fun_induction claim unseen candidates with
  | case1 unseen =>
      intro tree hung _ apart
      simpa using ⟨hung,apart⟩
  | case2 unseen node rest fresh found ih =>
      intro tree hung there apart
      obtain ⟨same,link⟩ := linked node (by simp)
      have further : Hung g root (tree ++ [node]) := by
        obtain ⟨id,_⟩ := node
        cases same
        exact .hang hung there (apart id fresh) link
      have left : ∀ id ∈ unseen.erase node.1, id ∉ ids (tree ++ [node]) := by
        intro id member
        rw [idsJoined,List.mem_append]
        intro placed
        rcases placed with old | last
        · exact apart id (List.mem_of_mem_erase member) old
        · cases List.mem_singleton.mp last
          exact distinct.not_mem_erase member
      have grown := ih (distinct.erase _) (fun other member => linked other (List.mem_cons_of_mem _ member))
        further (by rw [idsJoined]; exact List.mem_append_left _ there) left
      simpa [List.append_assoc] using grown
  | case3 unseen node rest seen ih =>
      exact ih distinct fun other member => linked other (List.mem_cons_of_mem _ member)

theorem hungGrow {unseen : List String} {queue : Tree} :
    unseen.Nodup → ∀ front, Hung g root (front ++ queue) → (∀ id ∈ unseen, id ∉ ids (front ++ queue)) →
      Hung g root (front ++ (grow g.treeSteps unseen queue).1) := by
  fun_induction grow g.treeSteps unseen queue with
  | case1 unseen =>
      intro _ front hung _
      exact hung
  | case2 unseen node queue found grown ih =>
      intro distinct front hung apart
      have there : node.1 ∈ ids (front ++ node :: queue) := List.mem_map.mpr ⟨node,by simp,rfl⟩
      have linked : ∀ child ∈ g.treeSteps node.1 node.2, child.2 = some node.1 ∧ g.Adjacent node.1 child.1 := by
        intro child step
        obtain ⟨id,member,rfl⟩ := List.mem_map.mp step
        exact ⟨rfl,memAdjacent.mp member⟩
      obtain ⟨further,left⟩ := hungClaim distinct linked hung there apart
      have rest : found.2.Nodup :=
        (List.nodup_append.mp ((claimPerm unseen (g.treeSteps node.1 node.2)).nodup_iff.mpr distinct)).2.1
      have shifted : front ++ node :: queue ++ found.1 = front ++ [node] ++ (queue ++ found.1) := by simp
      have whole := ih rest (front ++ [node]) (shifted ▸ further) (shifted ▸ left)
      simpa [grown] using whole

theorem treeGrown (there : root ∈ g.nodeIds) :
    g.treeFrom root = (grow g.treeSteps ((sortedIds g.nodeIds).erase root) [(root,none)]).1 := by
  simp [treeFrom,forest,claim,memSortedIds.mpr there]

theorem treeHung (there : root ∈ g.nodeIds) : Hung g root (g.treeFrom root) := by
  have distinct := sortedIdsNodup g.nodeIds
  rw [treeGrown there]
  refine hungGrow (distinct.erase root) [] .root fun id member placed => ?_
  have : id = root := by simpa [ids] using placed
  exact distinct.not_mem_erase (this ▸ member)

theorem wayNodes {v : String} {nodes : List String} (way : g.Way root v nodes) (there : root ∈ g.nodeIds) :
    v ∈ g.nodeIds := by
  cases way with
  | stay => exact there
  | step _ link =>
      rcases link with link | link
      · exact (endsOfTransition link).2
      · exact (endsOfTransition link).1

theorem treeReaches (there : root ∈ g.nodeIds) {v : String} : v ∈ (g.treeFrom root).ids ↔ g.Reaches root v := by
  have hung := treeHung there
  constructor
  · intro placed
    obtain ⟨nodes,way,_⟩ := belowWay hung (belowRoot hung placed)
    exact ⟨nodes,way⟩
  · intro ⟨nodes,way⟩
    have distinct := (sortedIdsNodup g.nodeIds).erase root
    have shared := @growPerm _ g.treeSteps ((sortedIds g.nodeIds).erase root) [(root,none)]
    rw [treeGrown there]
    induction way with
    | stay => exact treeGrown there ▸ rootThere hung
    | @step v w nodes before link ih =>
        obtain ⟨node,found,rfl⟩ := List.mem_map.mp ih
        have missed := growClosed distinct node found (w,some node.1)
          (List.mem_map.mpr ⟨w,memAdjacent.mpr link,rfl⟩)
        have selected := wayNodes (.step before link) there
        have listed : w ∈ [(root,(none : Option String))].map Prod.fst ++ (sortedIds g.nodeIds).erase root := by
          by_cases same : w = root
          · simp [same]
          · simp [same,List.mem_erase_of_ne,memSortedIds,selected]
        exact (List.mem_append.mp (shared.mem_iff.mpr listed)).resolve_right missed

end SelectionGraph

end PathQuery
