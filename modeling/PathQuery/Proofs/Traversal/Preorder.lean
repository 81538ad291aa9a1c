import PathQuery.Proofs.Traversal.Ascent
import PathQuery.Proofs.Traversal.Crossing

/-! A walk down a forest comes to a node, then to all that is below it, and only then to anything else. -/
namespace PathQuery

section

variable {α : Type} {u v : α}

theorem sublistLeft {first second : List α} (between : List α)
    (within : (between ++ [v]).Sublist (first ++ second)) (absent : v ∉ second) :
    (between ++ [v]).Sublist first := by
  obtain ⟨front,back,split,inFirst,inSecond⟩ := List.sublist_append_iff.mp within
  rcases List.eq_nil_or_concat back with rfl | ⟨rest,last,rfl⟩
  · rwa [split,List.append_nil]
  · rw [List.concat_eq_append] at split inSecond
    rw [← List.append_assoc] at split
    obtain ⟨_,same⟩ := List.append_inj' split rfl
    cases List.singleton_inj.mp same
    exact absurd (inSecond.subset (List.mem_append_right _ (List.mem_singleton.mpr rfl))) absent

theorem sublistRight {second between : List α} (first : List α)
    (within : (u :: between).Sublist (first ++ second)) (absent : u ∉ first) :
    (u :: between).Sublist second := by
  obtain ⟨front,back,split,inFirst,inSecond⟩ := List.sublist_append_iff.mp within
  cases front with
  | nil => rwa [split,List.nil_append]
  | cons head rest =>
      cases (List.cons.inj split).1
      exact absurd (inFirst.subset List.mem_cons_self) absent

end

namespace SelectionGraph

variable {g : SelectionGraph} {unseen : List String} {links : List (String × String)}

theorem leadsEither (forest : g.IsForest) {a b d : String} (one : g.Leads a d) (other : g.Leads b d) :
    g.Leads a b ∨ g.Leads b a := by
  induction one with
  | refl => exact .inr other
  | tail way link ih =>
      rcases Relation.ReflTransGen.cases_tail other with rfl | ⟨e,further,last⟩
      · exact .inl (way.tail link)
      · cases forest.single _ _ _ link last
        exact ih further

theorem leadsBack (forest : g.IsForest) {a b : String} (one : g.Leads a b) (other : g.Leads b a) : a = b := by
  rcases Relation.reflTransGen_iff_eq_or_transGen.mp one with same | way
  · exact same.symm
  · exact absurd (way.trans_left other) (forest.acyclic a)

theorem descendAppend (g : SelectionGraph) (unseen : List String) (first second : List (String × String)) :
    g.descend unseen (first ++ second) =
      { reached := (g.descend unseen first).reached ++ (g.descend (g.descend unseen first).unseen second).reached
        links := (g.descend unseen first).links ++ (g.descend (g.descend unseen first).unseen second).links
        unseen := (g.descend (g.descend unseen first).unseen second).unseen } := by
  fun_induction descend g unseen first with
  | case1 unseen => rfl
  | case2 unseen link rest fresh walk ih =>
      rw [List.cons_append,descend,if_pos fresh,← List.append_assoc,ih]
      rfl
  | case3 unseen link rest seen walk ih =>
      rw [List.cons_append,descend,if_neg seen,ih]
      rfl

theorem descendReached {v : String} (reached : v ∈ (g.descend unseen links).reached) : v ∈ unseen :=
  (descendPerm g unseen links).mem_iff.mp (List.mem_append_left _ reached)

theorem descendLeft {v : String} (left : v ∈ (g.descend unseen links).unseen) : v ∈ unseen :=
  (descendPerm g unseen links).mem_iff.mp (List.mem_append_right _ left)

theorem descendApart (once : unseen.Nodup) {v : String} (reached : v ∈ (g.descend unseen links).reached) :
    v ∉ (g.descend unseen links).unseen := fun left =>
  (List.nodup_append.mp ((descendPerm g unseen links).nodup_iff.mpr once)).2.2 v reached v left rfl

theorem descendFrom {v : String} (reached : v ∈ (g.descend unseen links).reached) :
    ∃ link ∈ links, link.2 ∈ unseen ∧ g.Leads link.2 v := by
  fun_induction descend g unseen links with
  | case1 unseen => exact absurd reached List.not_mem_nil
  | case2 unseen link rest fresh walk ih =>
      rcases List.mem_cons.mp reached with rfl | further
      · exact ⟨link,List.mem_cons_self,fresh,.refl⟩
      · obtain ⟨next,member,left,leads⟩ := ih further
        rcases List.mem_append.mp member with below | later
        · obtain ⟨same,step⟩ := memLinksFrom.mp below
          exact ⟨link,List.mem_cons_self,fresh,.head (same ▸ step) leads⟩
        · exact ⟨next,List.mem_cons_of_mem _ later,List.mem_of_mem_erase left,leads⟩
  | case3 unseen link rest seen walk ih =>
      obtain ⟨next,member,left,leads⟩ := ih reached
      exact ⟨next,List.mem_cons_of_mem _ member,left,leads⟩

theorem descendClosed (once : unseen.Nodup) :
    (∀ link ∈ links, link.2 ∉ (g.descend unseen links).unseen) ∧
      ∀ v ∈ (g.descend unseen links).reached, ∀ d, (v,d) ∈ g.transitions →
        d ∉ (g.descend unseen links).unseen := by
  fun_induction descend g unseen links with
  | case1 unseen =>
      exact ⟨fun _ member => absurd member List.not_mem_nil,fun _ member => absurd member List.not_mem_nil⟩
  | case2 unseen link rest fresh walk ih =>
      obtain ⟨targets,below⟩ := ih (once.erase _)
      constructor
      · intro next member left
        rcases List.mem_cons.mp member with rfl | member
        · exact once.not_mem_erase (descendLeft left)
        · exact targets next (List.mem_append_right _ member) left
      · intro v reached d step
        rcases List.mem_cons.mp reached with rfl | further
        · exact targets (link.2,d) (List.mem_append_left _ (memLinksFrom.mpr ⟨rfl,step⟩))
        · exact below v further d step
  | case3 unseen link rest seen walk ih =>
      obtain ⟨targets,below⟩ := ih once
      refine ⟨fun next member => ?_,below⟩
      rcases List.mem_cons.mp member with rfl | member
      · exact fun left => seen (descendLeft left)
      · exact targets next member

structure Ahead (g : SelectionGraph) (unseen : List String) (links : List (String × String)) : Prop where
  once : unseen.Nodup
  closed : ∀ c ∈ unseen, ∀ d, (c,d) ∈ g.transitions → d ∈ unseen
  first : ∀ link ∈ links, ∀ c ∈ unseen, (c,link.2) ∉ g.transitions

theorem aheadSkip {link : String × String} (ahead : Ahead g unseen (link :: links)) : Ahead g unseen links :=
  { ahead with first := fun next member => ahead.first next (List.mem_cons_of_mem _ member) }

theorem aheadStep (forest : g.IsForest) {link : String × String} (ahead : Ahead g unseen (link :: links)) :
    Ahead g (unseen.erase link.2) (g.linksFrom link.2 ++ links) where
  once := ahead.once.erase _
  closed := by
    intro c member d step
    have before := List.mem_of_mem_erase member
    have other : d ≠ link.2 := by
      rintro rfl
      exact ahead.first link List.mem_cons_self c before step
    exact (List.mem_erase_of_ne other).mpr (ahead.closed c before d step)
  first := by
    intro next member c left step
    rcases List.mem_append.mp member with below | later
    · obtain ⟨same,other⟩ := memLinksFrom.mp below
      cases forest.single _ _ _ step other
      exact ahead.once.not_mem_erase (same ▸ left)
    · exact ahead.first next (List.mem_cons_of_mem _ later) c (List.mem_of_mem_erase left) step

theorem aheadBelow (ahead : Ahead g unseen links) {c d : String} (member : c ∈ unseen) (leads : g.Leads c d) :
    d ∈ unseen := by
  induction leads with
  | refl => exact member
  | tail _ step ih => exact ahead.closed _ ih _ step

theorem aheadAfter (forest : g.IsForest) (ahead : Ahead g unseen links) :
    Ahead g (g.descend unseen links).unseen [] := by
  fun_induction descend g unseen links with
  | case1 unseen => exact ahead
  | case2 unseen link rest fresh walk ih => exact ih (aheadStep forest ahead)
  | case3 unseen link rest seen walk ih => exact ih (aheadSkip ahead)

theorem descendCovers (ahead : Ahead g unseen links) {link : String × String} (member : link ∈ links)
    (fresh : link.2 ∈ unseen) {v : String} (leads : g.Leads link.2 v) : v ∈ (g.descend unseen links).reached := by
  have closed : (∀ link ∈ links, link.2 ∉ (g.descend unseen links).unseen) ∧
      ∀ v ∈ (g.descend unseen links).reached, ∀ d, (v,d) ∈ g.transitions → d ∉ (g.descend unseen links).unseen :=
    descendClosed ahead.once
  obtain ⟨targets,below⟩ := closed
  have shared : ∀ {d}, d ∈ unseen → d ∉ (g.descend unseen links).unseen →
      d ∈ (g.descend unseen links).reached := fun there gone =>
    (List.mem_append.mp ((descendPerm g unseen links).mem_iff.mpr there)).resolve_right gone
  induction leads with
  | refl => exact shared fresh (targets link member)
  | tail _ step ih => exact shared (ahead.closed _ (descendReached ih) _ step) (below _ ih _ step)

theorem descendBelow (forest : g.IsForest) {link : String × String} (ahead : Ahead g unseen (link :: links))
    (fresh : link.2 ∈ unseen) {v : String} :
    v ∈ link.2 :: (g.descend (unseen.erase link.2) (g.linksFrom link.2)).reached ↔ g.Leads link.2 v := by
  have further := aheadStep forest ahead
  have below : Ahead g (unseen.erase link.2) (g.linksFrom link.2) :=
    { further with first := fun next member => further.first next (List.mem_append_left _ member) }
  constructor
  · intro member
    rcases List.mem_cons.mp member with rfl | reached
    · exact .refl
    · obtain ⟨next,listed,_,leads⟩ := descendFrom reached
      obtain ⟨source,step⟩ := memLinksFrom.mp listed
      exact .head (source ▸ step) leads
  · intro leads
    rcases Relation.ReflTransGen.cases_head leads with rfl | ⟨next,step,onward⟩
    · exact List.mem_cons_self
    · have other : next ≠ link.2 := by
        rintro rfl
        exact ahead.first link List.mem_cons_self _ fresh step
      have pending : next ∈ unseen.erase link.2 :=
        (List.mem_erase_of_ne other).mpr (ahead.closed _ fresh _ step)
      exact List.mem_cons_of_mem _ (descendCovers below (memLinksFrom.mpr ⟨rfl,step⟩) pending onward)

theorem descendTogether (forest : g.IsForest) (ahead : Ahead g unseen links) {m u w v : String}
    (there : m ∈ unseen) (within : [u,w,v].Sublist (g.descend unseen links).reached) (first : g.Leads m u)
    (last : g.Leads m v) : g.Leads m w := by
  fun_induction descend g unseen links with
  | case1 unseen => exact absurd (within.subset List.mem_cons_self) List.not_mem_nil
  | case2 unseen link rest fresh walk ih =>
      by_cases same : m = link.2
      · subst same
        have below := descendBelow forest ahead fresh (v := v)
        have parts : walk.reached = (g.descend (unseen.erase link.2) (g.linksFrom link.2)).reached ++
            (g.descend (g.descend (unseen.erase link.2) (g.linksFrom link.2)).unseen rest).reached := by
          simp only [walk,descendAppend]
        have gone : v ∉ (g.descend (g.descend (unseen.erase link.2) (g.linksFrom link.2)).unseen rest).reached := by
          intro later
          rcases List.mem_cons.mp (below.mpr last) with rfl | reached
          · exact ahead.once.not_mem_erase (descendLeft (descendReached later))
          · exact descendApart (ahead.once.erase _) reached (descendReached later)
        change [u,w,v].Sublist (link.2 :: walk.reached) at within
        rw [parts,← List.cons_append] at within
        exact (descendBelow forest ahead fresh).mp
          ((sublistLeft [u,w] within gone).subset (show w ∈ [u,w,v] by simp))
      · have left : m ∈ unseen.erase link.2 := (List.mem_erase_of_ne same).mpr there
        refine ih (aheadStep forest ahead) left ?_
        refine sublistRight [link.2] (by simpa using within) ?_
        intro here
        cases List.mem_singleton.mp here
        rcases Relation.ReflTransGen.cases_tail first with same' | ⟨c,leads,step⟩
        · exact same same'.symm
        · exact ahead.first link List.mem_cons_self c (aheadBelow ahead there leads) step
  | case3 unseen link rest seen walk ih => exact ih (aheadSkip ahead) there within

theorem descendBetween (forest : g.IsForest) (ahead : Ahead g unseen links) {m u w v : String} {later : List String}
    (rest : ∀ d ∈ later, d ∈ (g.descend unseen links).unseen) (there : m ∈ unseen)
    (within : [u,w,v].Sublist ((g.descend unseen links).reached ++ later))
    (reached : v ∈ (g.descend unseen links).reached) (first : g.Leads m u) (last : g.Leads m v) : g.Leads m w :=
  descendTogether forest ahead there
    (sublistLeft [u,w] within fun late => descendApart ahead.once reached (rest v late)) first last

theorem descendAllDescends (g : SelectionGraph) (unseen ids : List String) :
    (g.descendAll unseen ids).reached = (g.descend unseen (ids.map fun id => (id,id))).reached ∧
      (g.descendAll unseen ids).unseen = (g.descend unseen (ids.map fun id => (id,id))).unseen := by
  fun_induction descendAll g unseen ids with
  | case1 unseen => simp [descend]
  | case2 unseen id rest fresh walk more ih =>
      rw [List.map_cons,descend,if_pos fresh,descendAppend,← ih.1,← ih.2]
      exact ⟨rfl,rfl⟩
  | case3 unseen id rest seen ih =>
      rw [List.map_cons,descend,if_neg seen]
      exact ih

end SelectionGraph

end PathQuery
