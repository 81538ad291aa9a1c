import Mathlib.Combinatorics.SimpleGraph.Acyclic
import PathQuery.Proofs.Traversal.Search

/-! Growth comes to nearer nodes first: each node is found from one that is a step nearer to the root, whatever
its label is and however the steps of a node are ordered. So a forest is made of whole parts of the selection. -/
namespace PathQuery.SelectionGraph

def undirected (g : SelectionGraph) : SimpleGraph String := .fromRel fun s t => (s,t) ∈ g.transitions

structure Outward {α : Type} (g : SelectionGraph) (root : String) (next : String → α → List (String × α))
    (Fits : String → α → Prop) : Prop where
  beside : ∀ {v label child}, child ∈ next v label → child.1 ≠ v → g.undirected.Adj child.1 v
  every : ∀ {u v}, g.undirected.Adj u v → ∀ label, ∃ other, (u,other) ∈ next v label
  linked : ∀ {v label}, Fits v label → g.undirected.Reachable v root
  further : ∀ {v label child}, Fits v label → child ∈ next v label →
    g.undirected.dist child.1 root = g.undirected.dist v root + 1 → Fits child.1 child.2

variable {α : Type} {g : SelectionGraph} {root v : String} {next : String → α → List (String × α)}
  {Fits : String → α → Prop} {unseen : List String} {queue : List (String × α)}

theorem undirectedAdj {u : String} :
    g.undirected.Adj v u ↔ v ≠ u ∧ ((v,u) ∈ g.transitions ∨ (u,v) ∈ g.transitions) := SimpleGraph.fromRel_adj ..

/-- What waits to be grown from fits, nearer nodes first, and no two of them are more than a step further than
one another. All next to what is unseen is unseen or waits. -/
structure Frontier (g : SelectionGraph) (root : String) (Fits : String → α → Prop) (unseen : List String)
    (queue : List (String × α)) : Prop where
  placed : ∀ node ∈ queue, Fits node.1 node.2
  level : queue.Pairwise fun a b => g.undirected.dist a.1 root ≤ g.undirected.dist b.1 root ∧
    g.undirected.dist b.1 root ≤ g.undirected.dist a.1 root + 1
  once : unseen.Nodup
  apart : ∀ node ∈ queue, node.1 ∉ unseen
  rooted : root ∉ unseen
  closed : ∀ v ∈ unseen, ∀ u, g.undirected.Adj v u → u ∈ unseen ∨ u ∈ queue.map Prod.fst

theorem frontierStart {seed : α} (fits : Fits root seed) (once : unseen.Nodup)
    (closed : ∀ v ∈ unseen, ∀ u, g.undirected.Adj v u → u ∈ unseen) :
    Frontier g root Fits (unseen.erase root) [(root,seed)] where
  placed := by
    intro node member
    cases List.mem_singleton.mp member
    exact fits
  level := List.pairwise_singleton _ _
  once := once.erase root
  apart := by
    intro node member
    cases List.mem_singleton.mp member
    exact once.not_mem_erase
  rooted := once.not_mem_erase
  closed := by
    intro v member u adj
    by_cases same : u = root
    · exact .inr (by simp [same])
    · exact .inl ((List.mem_erase_of_ne same).mpr (closed v (List.mem_of_mem_erase member) u adj))

theorem frontierOnWay (frontier : Frontier g root Fits unseen queue) (way : g.undirected.Walk v root)
    (fresh : v ∈ unseen) : ∃ node ∈ queue, g.undirected.dist node.1 root < way.length := by
  induction way with
  | nil => exact absurd fresh frontier.rooted
  | @cons v u root adj way ih =>
      rw [SimpleGraph.Walk.length_cons]
      rcases frontier.closed v fresh u adj with further | waits
      · obtain ⟨node,member,near⟩ := ih frontier further
        exact ⟨node,member,Nat.lt_succ_of_lt near⟩
      · obtain ⟨node,member,rfl⟩ := List.mem_map.mp waits
        exact ⟨node,member,Nat.lt_succ_of_le (SimpleGraph.dist_le way)⟩

variable {node : String × α}

theorem frontierHead (frontier : Frontier g root Fits unseen (node :: queue)) (fresh : v ∈ unseen)
    (reachable : g.undirected.Reachable v root) : g.undirected.dist node.1 root < g.undirected.dist v root := by
  obtain ⟨way,shortest⟩ := reachable.exists_walk_length_eq_dist
  obtain ⟨near,member,less⟩ := frontierOnWay frontier way fresh
  rw [shortest] at less
  rcases List.mem_cons.mp member with rfl | later
  · exact less
  · exact Nat.lt_of_le_of_lt ((List.pairwise_cons.mp frontier.level).1 near later).1 less

section
variable (outward : Outward g root next Fits)

include outward

theorem frontierFound (frontier : Frontier g root Fits unseen (node :: queue)) :
    ∀ child ∈ (Breadth.claim unseen (next node.1 node.2)).1,
      Fits child.1 child.2 ∧ g.undirected.dist child.1 root = g.undirected.dist node.1 root + 1 := by
  intro child member
  obtain ⟨step,fresh⟩ := Breadth.claimMem member
  have fits := frontier.placed node List.mem_cons_self
  have adj := outward.beside step fun same => frontier.apart node List.mem_cons_self (same ▸ fresh)
  obtain ⟨way,shortest⟩ := (outward.linked fits).exists_walk_length_eq_dist
  have near := SimpleGraph.dist_le (.cons adj way)
  rw [SimpleGraph.Walk.length_cons,shortest] at near
  have far := Nat.le_antisymm near (frontierHead frontier fresh (adj.reachable.trans (outward.linked fits)))
  exact ⟨outward.further fits step far,far⟩

theorem frontierStep (frontier : Frontier g root Fits unseen (node :: queue)) :
    Frontier g root Fits (Breadth.claim unseen (next node.1 node.2)).2
      (queue ++ (Breadth.claim unseen (next node.1 node.2)).1) := by
  have shared := Breadth.claimPerm unseen (next node.1 node.2)
  obtain ⟨_,left,split⟩ := List.nodup_append.mp (shared.nodup_iff.mpr frontier.once)
  obtain ⟨ahead,later⟩ := List.pairwise_cons.mp frontier.level
  have found := frontierFound outward frontier
  exact
    { placed := by
        intro next member
        rcases List.mem_append.mp member with waits | claimed
        · exact frontier.placed next (List.mem_cons_of_mem _ waits)
        · exact (found next claimed).1
      level := by
        refine List.pairwise_append.mpr ⟨later,?_,?_⟩
        · refine List.pairwise_of_forall_mem_list fun a first b second => ?_
          rw [(found a first).2,(found b second).2]
          exact ⟨Nat.le_refl _,Nat.le_succ _⟩
        · intro a waits b claimed
          have := ahead a waits
          rw [(found b claimed).2]
          omega
      once := left
      apart := by
        intro next member
        rcases List.mem_append.mp member with waits | claimed
        · exact fun there => frontier.apart next (List.mem_cons_of_mem _ waits) (Breadth.claimLeft there)
        · exact fun there => split next.1 (List.mem_map.mpr ⟨next,claimed,rfl⟩) next.1 there rfl
      rooted := fun there => frontier.rooted (Breadth.claimLeft there)
      closed := by
        intro v fresh u adj
        rw [List.map_append,List.mem_append]
        rcases frontier.closed v (Breadth.claimLeft fresh) u adj with unseen | waits
        · rcases List.mem_append.mp (shared.mem_iff.mpr unseen) with claimed | still
          · exact .inr (.inr claimed)
          · exact .inl still
        · rcases List.mem_cons.mp waits with rfl | waits
          · obtain ⟨other,step⟩ := outward.every adj node.2
            exact absurd fresh (Breadth.claimCovers frontier.once step)
          · exact .inr (.inl waits) }

theorem growFits (frontier : Frontier g root Fits unseen queue) :
    ∀ node ∈ (Breadth.grow next unseen queue).1, Fits node.1 node.2 := by
  revert frontier
  fun_induction Breadth.grow next unseen queue with
  | case1 unseen => exact fun _ _ member => absurd member List.not_mem_nil
  | case2 unseen node queue found grown ih =>
      intro frontier other member
      rcases List.mem_cons.mp member with rfl | member
      · exact frontier.placed other List.mem_cons_self
      · exact ih (frontierStep outward frontier) other member

end

def Walled (g : SelectionGraph) (unseen : List String) : Prop :=
  ∀ v ∈ unseen, ∀ u, g.undirected.Adj v u → u ∈ unseen

theorem walledIds (g : SelectionGraph) : Walled g (sortedIds g.nodeIds) := by
  intro v _ u adj
  rw [memSortedIds]
  rcases (undirectedAdj.mp adj).2 with link | link
  · exact (endsOfTransition link).2
  · exact (endsOfTransition link).1

structure Part (g : SelectionGraph) (root : String) (Fits : String → α → Prop) (found : List (String × α)) :
    Prop where
  placed : ∀ node ∈ found, Fits node.1 node.2
  whole : ∀ v, g.undirected.Reachable v root → ∃ label, (v,label) ∈ found

theorem rootedPerm (next : String → α → List (String × α)) (seed : α) (there : root ∈ unseen) :
    ((Breadth.grow next (unseen.erase root) [(root,seed)]).1.map Prod.fst ++
      (Breadth.grow next (unseen.erase root) [(root,seed)]).2).Perm unseen :=
  (Breadth.growPerm _ _).trans (List.perm_cons_erase there).symm

theorem grownPart {seed : α} (outward : Outward g root next Fits) (fits : Fits root seed) (once : unseen.Nodup)
    (walled : Walled g unseen) (there : root ∈ unseen) :
    Part g root Fits (Breadth.grow next (unseen.erase root) [(root,seed)]).1 ∧
      Walled g (Breadth.grow next (unseen.erase root) [(root,seed)]).2 := by
  have frontier : Frontier g root Fits (unseen.erase root) [(root,seed)] := frontierStart fits once walled
  have placed := growFits outward frontier
  have closed := @Breadth.growClosed _ next _ [(root,seed)] frontier.once
  have shared := rootedPerm next seed there
  have first : root ∉ (Breadth.grow next (unseen.erase root) [(root,seed)]).2 :=
    fun left => frontier.rooted (Breadth.growLeft left)
  generalize Breadth.grow next (unseen.erase root) [(root,seed)] = grown at *
  have beside : ∀ {v u}, u ∈ grown.1.map Prod.fst → g.undirected.Adj v u → v ∈ grown.1.map Prod.fst := by
    intro v u found adj
    obtain ⟨node,member,rfl⟩ := List.mem_map.mp found
    have seen := walled node.1 (shared.mem_iff.mp (List.mem_append_left _ found)) v adj.symm
    obtain ⟨other,step⟩ := outward.every adj node.2
    exact (List.mem_append.mp (shared.mem_iff.mpr seen)).resolve_right (closed node member _ step)
  refine ⟨⟨placed,?_⟩,?_⟩
  · -- By induction on the way back to the root: what is next to a node that is found is found.
    rintro v ⟨way⟩
    have start : root ∈ grown.1.map Prod.fst := (List.mem_append.mp (shared.mem_iff.mpr there)).resolve_right first
    have found : v ∈ grown.1.map Prod.fst := by
      clear frontier placed there shared first outward fits
      induction way with
      | nil => exact start
      | cons adj way ih => exact beside (ih start) adj
    obtain ⟨node,member,rfl⟩ := List.mem_map.mp found
    exact ⟨node.2,member⟩
  · intro v left u adj
    have seen := walled v (shared.mem_iff.mp (List.mem_append_right _ left)) u adj
    refine (List.mem_append.mp (shared.mem_iff.mpr seen)).resolve_left fun found => ?_
    have apart := (List.nodup_append.mp (shared.nodup_iff.mpr once)).2.2
    exact apart v (beside found adj) v left rfl

theorem forestSeed (next : String → α → List (String × α)) (seed : α) (unseen : List String) (id : String)
    (rest : List String) :
    Breadth.forest next unseen ((id :: rest).map fun id => [(id,seed)]) =
      if id ∈ unseen then
        (Breadth.grow next (unseen.erase id) [(id,seed)]).1 ++ Breadth.forest next
          (Breadth.grow next (unseen.erase id) [(id,seed)]).2 (rest.map fun id => [(id,seed)])
      else Breadth.forest next unseen (rest.map fun id => [(id,seed)]) := by
  rw [List.map_cons,Breadth.forest]
  by_cases fresh : id ∈ unseen <;> simp [Breadth.claim,Breadth.grow,fresh]

theorem forestParts {Spans : String → String → α → Prop} {seed : α} (Grows : String → List (String × α) → Prop)
    (outward : ∀ root, Outward g root next (Spans root)) (fits : ∀ root, Spans root root seed)
    (grows : ∀ unseen : List String, unseen.Nodup → ∀ root ∈ unseen,
      Grows root (Breadth.grow next (unseen.erase root) [(root,seed)]).1) (ids : List String) :
    ∀ {unseen}, unseen.Nodup → Walled g unseen → ∃ parts : List (String × List (String × α)),
      Breadth.forest next unseen (ids.map fun id => [(id,seed)]) = parts.flatMap Prod.snd ∧
      (parts.map Prod.fst).Sublist ids ∧
      ∀ part ∈ parts, Part g part.1 (Spans part.1) part.2 ∧ Grows part.1 part.2 ∧
        (∀ node ∈ part.2, node.1 ∈ unseen) ∧
        ∃ before after, ids = before ++ part.1 :: after ∧ ∀ node ∈ part.2, node.1 ∉ before := by
  induction ids with
  | nil => exact fun _ _ => ⟨[],rfl,.slnil,List.forall_mem_nil _⟩
  | cons id rest ih =>
      intro unseen once walled
      have behind : ∀ {left : List String}, id ∉ left → ∀ part : String × List (String × α),
          (∀ node ∈ part.2, node.1 ∈ left) →
          (∃ before after, rest = before ++ part.1 :: after ∧ ∀ node ∈ part.2, node.1 ∉ before) →
          ∃ before after, id :: rest = before ++ part.1 :: after ∧ ∀ node ∈ part.2, node.1 ∉ before := by
        rintro left seen part inside ⟨before,after,rfl,apart⟩
        refine ⟨id :: before,after,rfl,fun node member => ?_⟩
        exact List.not_mem_cons_of_ne_of_not_mem (fun same => seen (same ▸ inside node member)) (apart node member)
      rw [forestSeed]
      split
      · next fresh =>
        have shared := rootedPerm next seed fresh
        obtain ⟨part,left⟩ := grownPart (outward id) (fits id) once walled fresh
        have further := (List.nodup_append.mp (shared.nodup_iff.mpr once)).2.1
        obtain ⟨parts,whole,listed,each⟩ := ih further left
        refine ⟨(id,_) :: parts,by rw [whole,List.flatMap_cons],listed.cons_cons id,?_⟩
        refine List.forall_mem_cons.mpr ⟨⟨part,grows unseen once id fresh,fun node member => ?_,[],rest,rfl,?_⟩,?_⟩
        · exact shared.mem_iff.mp (List.mem_append_left _ (List.mem_map_of_mem member))
        · exact fun _ _ => List.not_mem_nil
        · intro other member
          obtain ⟨own,grown,inside,first⟩ := each other member
          have seen : id ∉ (Breadth.grow next (unseen.erase id) [(id,seed)]).2 :=
            fun there => once.not_mem_erase (Breadth.growLeft there)
          refine ⟨own,grown,fun node there => ?_,behind seen other inside first⟩
          exact shared.mem_iff.mp (List.mem_append_right _ (inside node there))
      · next seen =>
        obtain ⟨parts,whole,listed,each⟩ := ih once walled
        refine ⟨parts,whole,listed.cons id,fun part member => ?_⟩
        obtain ⟨own,grown,inside,first⟩ := each part member
        exact ⟨own,grown,inside,behind seen part inside first⟩

end PathQuery.SelectionGraph
