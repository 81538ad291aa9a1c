import PathQuery.Proofs.Traversal.Coverage
import PathQuery.Table

/-! Breadth-first growth finds every id just once, and what holds of the seeds and passes down each step
holds of all that is found. -/
namespace PathQuery

namespace Breadth

variable {α : Type}

theorem claimPerm (unseen : List String) (candidates : List (String × α)) :
    ((claim unseen candidates).1.map Prod.fst ++ (claim unseen candidates).2).Perm unseen := by
  fun_induction claim unseen candidates with
  | case1 unseen => exact .refl _
  | case2 unseen candidate rest fresh found ih =>
      exact (ih.cons candidate.1).trans (List.perm_cons_erase fresh).symm
  | case3 unseen candidate rest seen ih => exact ih

theorem claimMem {unseen : List String} {candidates : List (String × α)} {node : String × α}
    (member : node ∈ (claim unseen candidates).1) : node ∈ candidates ∧ node.1 ∈ unseen := by
  fun_induction claim unseen candidates with
  | case1 unseen => nomatch member
  | case2 unseen candidate rest fresh found ih =>
      rcases List.mem_cons.mp member with rfl | member
      · exact ⟨List.mem_cons_self,fresh⟩
      · obtain ⟨there,left⟩ := ih member
        exact ⟨List.mem_cons_of_mem _ there,List.mem_of_mem_erase left⟩
  | case3 unseen candidate rest seen ih =>
      obtain ⟨there,left⟩ := ih member
      exact ⟨List.mem_cons_of_mem _ there,left⟩

theorem claimLeft {unseen : List String} {candidates : List (String × α)} {id : String}
    (left : id ∈ (claim unseen candidates).2) : id ∈ unseen :=
  (claimPerm unseen candidates).mem_iff.mp (List.mem_append_right _ left)

theorem claimCovers {unseen : List String} {candidates : List (String × α)} (distinct : unseen.Nodup)
    {node : String × α} (member : node ∈ candidates) : node.1 ∉ (claim unseen candidates).2 := by
  fun_induction claim unseen candidates with
  | case1 unseen => nomatch member
  | case2 unseen candidate rest fresh found ih =>
      rcases List.mem_cons.mp member with rfl | member
      · exact fun left => distinct.not_mem_erase (claimLeft left)
      · exact ih (distinct.erase _) member
  | case3 unseen candidate rest seen ih =>
      rcases List.mem_cons.mp member with rfl | member
      · exact fun left => seen (claimLeft left)
      · exact ih distinct member

variable {next : String → α → List (String × α)}

theorem growPerm (unseen : List String) (queue : List (String × α)) :
    ((grow next unseen queue).1.map Prod.fst ++ (grow next unseen queue).2).Perm
      (queue.map Prod.fst ++ unseen) := by
  fun_induction grow next unseen queue with
  | case1 unseen => exact .refl _
  | case2 unseen node queue found grown ih =>
      refine List.Perm.cons node.1 (ih.trans ?_)
      rw [List.map_append,List.append_assoc]
      exact (claimPerm unseen (next node.1 node.2)).append_left _

theorem growLeft {unseen : List String} {queue : List (String × α)} {id : String}
    (left : id ∈ (grow next unseen queue).2) : id ∈ unseen := by
  fun_induction grow next unseen queue with
  | case1 unseen => exact left
  | case2 unseen node queue found grown ih => exact claimLeft (ih left)

theorem growAll {P : String → α → Prop} {unseen : List String} {queue : List (String × α)}
    (start : ∀ node ∈ queue, P node.1 node.2)
    (down : ∀ id label, P id label → ∀ child ∈ next id label, child.1 ∈ unseen → P child.1 child.2) :
    ∀ node ∈ (grow next unseen queue).1, P node.1 node.2 := by
  fun_induction grow next unseen queue with
  | case1 unseen => exact fun _ member => nomatch member
  | case2 unseen node queue found grown ih =>
      have here := start node (by simp)
      intro other member
      rcases List.mem_cons.mp member with rfl | member
      · exact here
      · refine ih ?_ (fun id label holds child there left => down id label holds child there (claimLeft left))
          other member
        intro next there
        rcases List.mem_append.mp there with queued | claimed
        · exact start next (List.mem_cons_of_mem _ queued)
        · obtain ⟨candidate,fresh⟩ := claimMem claimed
          exact down node.1 node.2 here next candidate fresh

theorem growClosed {unseen : List String} {queue : List (String × α)} (distinct : unseen.Nodup) :
    ∀ node ∈ (grow next unseen queue).1, ∀ child ∈ next node.1 node.2,
      child.1 ∉ (grow next unseen queue).2 := by
  fun_induction grow next unseen queue with
  | case1 unseen => exact fun _ member => nomatch member
  | case2 unseen node queue found grown ih =>
      have rest : found.2.Nodup :=
        (List.nodup_append.mp ((claimPerm unseen (next node.1 node.2)).nodup_iff.mpr distinct)).2.1
      intro other member child step
      rcases List.mem_cons.mp member with rfl | member
      · exact fun left => claimCovers distinct step (growLeft left)
      · exact ih rest other member child step

theorem groupPerm (unseen : List String) (seeds : List (String × α)) :
    ((grow next (claim unseen seeds).2 (claim unseen seeds).1).1.map Prod.fst ++
      (grow next (claim unseen seeds).2 (claim unseen seeds).1).2).Perm unseen :=
  (growPerm _ _).trans (claimPerm unseen seeds)

theorem forestCovers {unseen : List String} {groups : List (List (String × α))} (distinct : unseen.Nodup)
    {id : String} (there : id ∈ unseen) (listed : ∃ seeds ∈ groups, id ∈ seeds.map Prod.fst) :
    id ∈ (forest next unseen groups).map Prod.fst := by
  fun_induction forest next unseen groups with
  | case1 unseen =>
      obtain ⟨_,member,_⟩ := listed
      nomatch member
  | case2 unseen seeds groups found grown ih =>
      have shared : (grown.1.map Prod.fst ++ grown.2).Perm unseen := groupPerm unseen seeds
      rw [List.map_append,List.mem_append]
      rcases List.mem_append.mp (shared.mem_iff.mpr there) with grew | left
      · exact .inl grew
      · refine .inr (ih (List.nodup_append.mp (shared.nodup_iff.mpr distinct)).2.1 left ?_)
        obtain ⟨group,member,seeded⟩ := listed
        rcases List.mem_cons.mp member with rfl | member
        · obtain ⟨node,seed,rfl⟩ := List.mem_map.mp seeded
          exact absurd (growLeft left) (claimCovers distinct seed)
        · exact ⟨group,member,seeded⟩

theorem forestOnce {unseen : List String} {groups : List (List (String × α))} (distinct : unseen.Nodup) :
    ((forest next unseen groups).map Prod.fst).Nodup ∧
      ∀ id ∈ (forest next unseen groups).map Prod.fst, id ∈ unseen := by
  fun_induction forest next unseen groups with
  | case1 unseen => exact ⟨.nil,fun _ member => nomatch member⟩
  | case2 unseen seeds groups found grown ih =>
      have shared : (grown.1.map Prod.fst ++ grown.2).Perm unseen := groupPerm unseen seeds
      obtain ⟨here,left,apart⟩ := List.nodup_append.mp (shared.nodup_iff.mpr distinct)
      obtain ⟨later,inside⟩ := ih left
      rw [List.map_append]
      refine ⟨List.nodup_append.mpr ⟨here,later,fun a grew b rest => apart a grew b (inside b rest)⟩,?_⟩
      intro id member
      rcases List.mem_append.mp member with grew | rest
      · exact shared.mem_iff.mp (List.mem_append_left _ grew)
      · exact shared.mem_iff.mp (List.mem_append_right _ (inside id rest))

end Breadth

namespace SelectionGraph

theorem contextFound {g : SelectionGraph} {id : String} (there : id ∈ g.nodeIds) :
    ∃ label, g.contexts.find? id = some label := by
  refine Option.isSome_iff_exists.mp (Table.lookupIsSome.mpr ?_)
  have sorted : id ∈ sortedIds g.nodeIds := memSortedIds.mpr there
  refine Breadth.forestCovers (sortedIdsNodup _) sorted ?_
  exact ⟨_,List.mem_cons_of_mem _ (List.mem_map.mpr ⟨id,sorted,rfl⟩),by simp⟩

end SelectionGraph

end PathQuery
