import PathQuery.Traversal.Plan

/-! The emission order has every selected node just once: a walk shares out what was unseen between what it
reaches and what it leaves unseen. -/
namespace PathQuery

theorem insertIdIncreasing {x : String} {ids : List String} (distinct : ids.Pairwise (· < ·)) :
    (insertId x ids).Pairwise (· < ·) := by
  induction ids with
  | nil => simp [insertId]
  | cons y rest ih =>
      obtain ⟨above,later⟩ := List.pairwise_cons.mp distinct
      unfold insertId
      split
      · exact distinct
      · next other =>
        split
        · next less =>
          refine List.pairwise_cons.mpr ⟨?_,distinct⟩
          intro z member
          rcases List.mem_cons.mp member with rfl | member
          · exact less
          · exact String.lt_trans less (above z member)
        · next notLess =>
          refine List.pairwise_cons.mpr ⟨?_,ih later⟩
          intro z member
          rcases memInsertId.mp member with rfl | member
          · refine Decidable.byContradiction fun notMore => other ?_
            exact String.le_antisymm (String.not_lt.mp notMore) (String.not_lt.mp notLess)
          · exact above z member

theorem sortedIdsIncreasing (ids : List String) : (sortedIds ids).Pairwise (· < ·) := by
  unfold sortedIds
  induction ids with
  | nil => exact .nil
  | cons x rest ih => exact insertIdIncreasing ih

theorem sortedIdsNodup (ids : List String) : (sortedIds ids).Nodup := by
  refine (sortedIdsIncreasing ids).imp ?_
  rintro id _ less rfl
  exact String.lt_irrefl id less

theorem eraseDupsNodup {α : Type} [BEq α] [LawfulBEq α] : ∀ items : List α, items.eraseDups.Nodup
  | [] => by simp
  | a :: rest => by
      rw [List.eraseDups_cons]
      refine List.nodup_cons.mpr ⟨?_,eraseDupsNodup _⟩
      simp [List.mem_eraseDups]
termination_by items => items.length
decreasing_by exact Nat.lt_succ_of_le (List.length_filter_le _ _)

theorem eraseDupsSublist {α : Type} [BEq α] [LawfulBEq α] : ∀ items : List α, items.eraseDups.Sublist items
  | [] => .slnil
  | a :: rest => by
      rw [List.eraseDups_cons]
      exact ((eraseDupsSublist _).trans List.filter_sublist).cons_cons a
termination_by items => items.length
decreasing_by exact Nat.lt_succ_of_le (List.length_filter_le _ _)

theorem eraseDupsMore {α : Type} [DecidableEq α] (items : List α) (a : α) :
    (items ++ [a]).eraseDups = if a ∈ items.eraseDups then items.eraseDups else items.eraseDups ++ [a] := by
  rw [List.eraseDups_append]
  by_cases there : a ∈ items <;> simp [List.removeAll,List.eraseDups_cons,there]

theorem eraseDupsOnce {α : Type} [BEq α] [LawfulBEq α] {items : List α} (once : items.Nodup) :
    items.eraseDups = items := by
  induction items with
  | nil => rfl
  | cons a rest ih =>
      obtain ⟨apart,later⟩ := List.nodup_cons.mp once
      have kept : rest.filter (fun b => !b == a) = rest :=
        List.filter_eq_self.mpr fun b member => by
          have other : b ≠ a := fun same => apart (same ▸ member)
          simpa using other
      rw [List.eraseDups_cons,kept,ih later]

namespace SelectionGraph

variable (g : SelectionGraph)

theorem descendPerm (unseen : List String) (links : List (String × String)) :
    ((g.descend unseen links).reached ++ (g.descend unseen links).unseen).Perm unseen := by
  fun_induction descend g unseen links with
  | case1 unseen => exact .refl _
  | case2 unseen link rest fresh walk ih => exact (ih.cons link.2).trans (List.perm_cons_erase fresh).symm
  | case3 unseen link rest seen walk ih => exact ih

theorem descendAllPerm (unseen ids : List String) :
    ((g.descendAll unseen ids).reached ++ (g.descendAll unseen ids).unseen).Perm unseen := by
  fun_induction descendAll g unseen ids with
  | case1 unseen => exact .refl _
  | case2 unseen id rest fresh walk more ih =>
      have below := descendPerm g (unseen.erase id) (g.linksFrom id)
      have both : (walk.reached ++ (more.reached ++ more.unseen)).Perm (unseen.erase id) :=
        (List.Perm.append_left walk.reached ih).trans below
      simpa [List.append_assoc] using (both.cons id).trans (List.perm_cons_erase fresh).symm
  | case3 unseen id rest seen ih => exact ih

theorem descendAllCovers {unseen ids : List String} (distinct : unseen.Nodup) {id : String}
    (member : id ∈ ids) : id ∉ (g.descendAll unseen ids).unseen := by
  fun_induction descendAll g unseen ids with
  | case1 unseen => nomatch member
  | case2 unseen first rest fresh walk more ih =>
      have left : (first :: walk.reached ++ walk.unseen).Nodup :=
        (((descendPerm g (unseen.erase first) (g.linksFrom first)).cons first).trans
          (List.perm_cons_erase fresh).symm).nodup_iff.mpr distinct
      have kept : ∀ {other}, other ∈ more.unseen → other ∈ walk.unseen := fun there =>
        (descendAllPerm g walk.unseen rest).mem_iff.mp (List.mem_append_right _ there)
      rcases List.mem_cons.mp member with rfl | member
      · intro there
        exact (List.nodup_cons.mp left).1 (List.mem_append_right _ (kept there))
      · exact ih (List.nodup_append.mp (List.nodup_cons.mp left).2).2.1 member
  | case3 unseen first rest seen ih =>
      rcases List.mem_cons.mp member with rfl | member
      · intro there
        exact seen ((descendAllPerm g unseen rest).mem_iff.mp (List.mem_append_right _ there))
      · exact ih distinct member

theorem descendAllWhole {unseen ids : List String} (distinct : unseen.Nodup)
    (listed : ∀ id ∈ unseen, id ∈ ids) : (g.descendAll unseen ids).reached.Perm unseen := by
  have shared := descendAllPerm g unseen ids
  have nothing : (g.descendAll unseen ids).unseen = [] := List.eq_nil_iff_forall_not_mem.mpr fun id there =>
    descendAllCovers g distinct (listed id (shared.mem_iff.mp (List.mem_append_right _ there))) there
  rwa [nothing,List.append_nil] at shared

def Step.leaves? : Step → Option String
  | .enter _ => none
  | .leave id => some id

theorem climbLeft (unseen : List String) (steps : List Step) :
    (g.climb unseen steps).left.Perm ((g.climb unseen steps).entered ++ steps.filterMap Step.leaves?) := by
  fun_induction climb g unseen steps with
  | case1 unseen => exact .nil
  | case2 unseen id rest walk ih => exact (ih.cons id).trans List.perm_middle.symm
  | case3 unseen id rest fresh walk ih =>
      have pushed : (((g.sourcesOf id).map Step.enter ++ .leave id :: rest).filterMap Step.leaves?) =
          id :: rest.filterMap Step.leaves? := by
        have enters : ((g.sourcesOf id).map Step.enter).filterMap Step.leaves? = [] :=
          List.filterMap_eq_nil_iff.mpr fun step member => by
            obtain ⟨_,_,rfl⟩ := List.mem_map.mp member
            rfl
        rw [List.filterMap_append,enters]
        rfl
      rw [pushed] at ih
      exact ih.trans List.perm_middle
  | case4 unseen id rest seen ih => exact ih

theorem climbEntered {unseen : List String} (distinct : unseen.Nodup) (steps : List Step) :
    (g.climb unseen steps).entered.Nodup ∧ ∀ id ∈ (g.climb unseen steps).entered, id ∈ unseen := by
  fun_induction climb g unseen steps with
  | case1 unseen => exact ⟨.nil,fun _ member => nomatch member⟩
  | case2 unseen id rest walk ih => exact ih distinct
  | case3 unseen id rest fresh walk ih =>
      obtain ⟨once,inside⟩ := ih (distinct.erase id)
      refine ⟨List.nodup_cons.mpr ⟨?_,once⟩,?_⟩
      · intro again
        exact distinct.not_mem_erase (inside id again)
      · intro other member
        rcases List.mem_cons.mp member with rfl | member
        · exact fresh
        · exact List.mem_of_mem_erase (inside other member)
  | case4 unseen id rest seen ih => exact ih distinct

theorem withoutPerm {ids dropped : List String} (distinct : ids.Nodup) (once : dropped.Nodup)
    (inside : ∀ id ∈ dropped, id ∈ ids) : (dropped ++ without ids dropped).Perm ids := by
  refine (List.perm_ext_iff_of_nodup ?_ distinct).mpr ?_
  · refine List.nodup_append.mpr ⟨once,distinct.filter _,?_⟩
    rintro id there _ member rfl
    simp [without,there] at member
  · intro id
    simp only [without,List.mem_append,List.mem_filter,Bool.not_eq_true',List.contains_eq_mem,
      decide_eq_false_iff_not]
    constructor
    · rintro (there | ⟨there,_⟩)
      · exact inside id there
      · exact there
    · intro there
      by_cases taken : id ∈ dropped
      · exact .inl taken
      · exact .inr ⟨there,taken⟩

def ascent (central : String) : List String :=
  (g.climb (sortedIds g.nodeIds) [.enter central]).left.filter (· ≠ central) ++ [central]

def descent (central : String) : Descent :=
  g.descend (without (sortedIds g.nodeIds) (g.ascent central)) (g.linksFrom central)

def remainder (central : String) : Descent :=
  g.descendAll (g.descent central).unseen (g.origins ++ sortedIds g.nodeIds)

theorem orderParts {g : SelectionGraph} {central : String} (found : g.effectiveCentral = some central) :
    g.plan.order = g.ascent central ++ (g.descent central).reached ++ (g.remainder central).reached := by
  simp only [plan,emissionOrder,found]
  rfl

theorem risingPart {central : String} (there : central ∈ sortedIds g.nodeIds) :
    (g.ascent central).Nodup ∧ ∀ id ∈ g.ascent central, id ∈ sortedIds g.nodeIds := by
  have left := climbLeft g (sortedIds g.nodeIds) [.enter central]
  obtain ⟨once,inside⟩ := climbEntered g (sortedIdsNodup g.nodeIds) [.enter central]
  simp only [List.filterMap_cons,Step.leaves?,List.filterMap_nil,List.append_nil] at left
  refine ⟨List.nodup_append.mpr ⟨(left.nodup_iff.mpr once).filter _,by simp,?_⟩,?_⟩
  · rintro id member _ last rfl
    rw [List.mem_singleton.mp last] at member
    simp at member
  · intro id member
    rcases List.mem_append.mp member with member | last
    · exact inside id (left.mem_iff.mp (List.mem_filter.mp member).1)
    · exact List.mem_singleton.mp last ▸ there

theorem orderPerm : g.emissionOrder.order.Perm (sortedIds g.nodeIds) := by
  have distinct := sortedIdsNodup g.nodeIds
  cases found : g.effectiveCentral with
  | none =>
      simp only [emissionOrder,found]
      exact descendAllWhole g distinct fun id there => List.mem_append_right _ there
  | some central =>
      obtain ⟨once,inside⟩ := risingPart g (memSortedIds.mpr (effectiveCentralMem found))
      have whole := withoutPerm distinct once inside
      have below : ((g.descent central).reached ++ (g.descent central).unseen).Perm
          (without (sortedIds g.nodeIds) (g.ascent central)) := descendPerm g _ _
      have rest := (List.nodup_append.mp (whole.nodup_iff.mpr distinct)).2.1
      have left := (List.nodup_append.mp (below.nodup_iff.mpr rest)).2.1
      have last : (g.remainder central).reached.Perm (g.descent central).unseen :=
        descendAllWhole g left fun id there => List.mem_append_right _ (whole.mem_iff.mp
          (List.mem_append_right _ (below.mem_iff.mp (List.mem_append_right _ there))))
      change g.plan.order.Perm _
      rw [orderParts found,List.append_assoc]
      exact (((last.append_left _).trans below).append_left (g.ascent central)).trans whole

theorem orderNodup : g.plan.order.Nodup :=
  (orderPerm g).nodup_iff.mpr (sortedIdsNodup g.nodeIds)

variable {g}

theorem memOrder {id : String} : id ∈ g.plan.order ↔ id ∈ g.nodeIds :=
  (orderPerm g).mem_iff.trans memSortedIds

end SelectionGraph

end PathQuery
