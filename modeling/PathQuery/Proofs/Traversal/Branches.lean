import PathQuery.Proofs.Traversal.Chains
import PathQuery.Proofs.Traversal.Preorder

/-! Where the nodes with one optional chain stand in the order of a forest: next to each other, unless they lie
beside the central node, in its tree but neither above nor below it. -/
namespace PathQuery.SelectionGraph

variable {g : SelectionGraph} {central m u w v : String}

def Beside (g : SelectionGraph) (v : String) : Prop :=
  v ∈ g.nodeIds ∧ ∃ central, g.effectiveCentral = some central ∧ ¬ g.Leads v central ∧ ¬ g.Leads central v ∧
    ∃ top, g.Leads top central ∧ g.Leads top v

theorem hangsLeads {marked : Option String} (hangs : Hangs g.plan.parents marked m v) : g.Leads m v := by
  induction hangs with
  | here _ => exact .refl
  | under _ up _ ih => exact ih.tail (upLink up)

theorem hangsApart {marked : Option String} (hangs : Hangs g.plan.parents marked m v) : marked ≠ some v := by
  cases hangs with
  | here apart => exact apart
  | under apart _ _ => exact apart

theorem hangsAscends (forest : g.IsForest) (found : g.effectiveCentral = some central)
    (hangs : Hangs g.plan.parents (some central) m v) (above : g.Leads m central) : g.Leads v central := by
  induction hangs with
  | here _ => exact above
  | @under v p apart up hangs ih =>
      have apart : p ≠ central := fun same => hangsApart hangs (by rw [same])
      obtain ⟨source,link,further⟩ := parentRecorded.mp ⟨p,up.1⟩
      cases forest.single _ _ _ link (upLink up)
      obtain ⟨_,same,leads⟩ := further ⟨central,found,apart,ih⟩
      cases found.symm.trans same
      exact leads

theorem hangsBelow (forest : g.IsForest) (named : "" ∉ g.nodeIds) (found : g.effectiveCentral = some central)
    (apart : ¬ g.Leads m central) (leads : g.Leads m v) : Hangs g.plan.parents (some central) m v := by
  have marked : ∀ {d}, g.Leads m d → some central ≠ some d := by
    rintro d way same
    cases same
    exact apart way
  induction leads with
  | refl => exact .here (marked .refl)
  | @tail p d way link ih =>
      have recorded : ∃ source, g.plan.parents.find? d = some source := by
        refine parentRecorded.mpr ⟨p,link,?_⟩
        rintro ⟨_,same,_,above⟩
        cases found.symm.trans same
        exact absurd (way.trans above) apart
      obtain ⟨source,parent⟩ := recorded
      cases forest.single _ _ _ (parentsLinked (Table.findMem parent)) link
      have blank : p ≠ "" := fun same => named (same ▸ (endsOfTransition link).1)
      exact .under (marked (way.tail link)) ⟨parent,blank⟩ ih

theorem hangsBetween (forest : g.IsForest) {marked : Option String} (hangs : Hangs g.plan.parents marked m v)
    (first : g.Leads m w) (last : g.Leads w v) : Hangs g.plan.parents marked m w := by
  induction hangs with
  | here apart =>
      cases leadsBack forest first last
      exact .here apart
  | @under v p apart up hangs ih =>
      rcases Relation.ReflTransGen.cases_tail last with rfl | ⟨q,way,link⟩
      · exact .under apart up hangs
      · cases forest.single _ _ _ link (upLink up)
        exact ih way

theorem climbLeaves (g : SelectionGraph) (unseen ids : List String) :
    (g.climb unseen (ids.map .leave)).left = ids := by
  induction ids with
  | nil => simp [climb]
  | cons id rest ih => rw [List.map_cons,climb,ih]

theorem oneSource (forest : g.IsForest) (v : String) :
    g.sourcesOf v = [] ∨ ∃ p, g.sourcesOf v = [p] ∧ (p,v) ∈ g.transitions := by
  have once : (g.sourcesOf v).Nodup := sortedIdsNodup _
  have single : ∀ a ∈ g.sourcesOf v, ∀ b ∈ g.sourcesOf v, a = b := fun a first b second =>
    forest.single a b v (memSourcesOf.mp first) (memSourcesOf.mp second)
  have linked : ∀ a ∈ g.sourcesOf v, (a,v) ∈ g.transitions := fun a member => memSourcesOf.mp member
  match sources : g.sourcesOf v with
  | [] => exact .inl rfl
  | [p] => exact .inr ⟨p,rfl,linked p (by simp [sources])⟩
  | p :: q :: rest =>
      rw [sources] at once
      have same := single p (by simp [sources]) q (by simp [sources])
      exact absurd (same ▸ List.mem_cons_self) (List.nodup_cons.mp once).1

theorem climbRow (forest : g.IsForest) (unseen : List String) {id : String} {below : List String}
    (row : (id :: below).Pairwise g.Leads) :
    (g.climb unseen (.enter id :: below.map .leave)).left.Pairwise g.Leads := by
  rw [climb]
  split
  · next fresh =>
    have leaves : Step.leave id :: below.map Step.leave = (id :: below).map Step.leave := rfl
    rcases oneSource forest id with none | ⟨p,one,link⟩
    · rw [none,List.map_nil,List.nil_append,leaves,climbLeaves]
      exact row
    · have smaller := List.length_erase_of_mem fresh
      have some := List.length_pos_of_mem fresh
      rw [one,List.map_cons,List.map_nil,List.singleton_append,leaves]
      refine climbRow forest (unseen.erase id) (List.pairwise_cons.mpr ⟨?_,row⟩)
      intro d member
      rcases List.mem_cons.mp member with rfl | member
      · exact .single link
      · exact .head link ((List.pairwise_cons.mp row).1 d member)
  · rw [climbLeaves]
    exact (List.pairwise_cons.mp row).2
termination_by unseen.length

theorem ascentRow (forest : g.IsForest) (there : central ∈ g.nodeIds) :
    (g.ascent central).Pairwise g.Leads := by
  refine List.pairwise_append.mpr ⟨?_,List.pairwise_singleton _ _,?_⟩
  · exact (climbRow forest _ (List.pairwise_singleton g.Leads central)).filter _
  · intro d member last same
    cases List.mem_singleton.mp same
    exact (memAscent there).mp (List.mem_append_left _ member)

theorem originTop {o : String} (origin : g.IsOrigin o) (leads : g.Leads v o) : v = o := by
  rcases Relation.ReflTransGen.cases_tail leads with same | ⟨c,_,link⟩
  · exact same.symm
  · exact absurd link (origin.2 c)

theorem originAbove (forest : g.IsForest) (there : v ∈ g.nodeIds) : ∃ o, g.IsOrigin o ∧ g.Leads o v := by
  obtain ⟨ids,crossed⟩ := crossedSome forest (fun _ origin => origin) there
  induction crossed with
  | @here o starts => exact ⟨o,starts,.refl⟩
  | down above link _ ih =>
      obtain ⟨o,origin,leads⟩ := ih (endsOfTransition link).1
      exact ⟨o,origin,leads.tail link⟩

theorem memWithoutAscent (there : central ∈ g.nodeIds) :
    v ∈ without (sortedIds g.nodeIds) (g.ascent central) ↔ v ∈ g.nodeIds ∧ ¬ g.Leads v central := by
  rw [← memAscent there]
  simp [without,memSortedIds]

theorem aheadDescent (forest : g.IsForest) (there : central ∈ g.nodeIds) :
    Ahead g (without (sortedIds g.nodeIds) (g.ascent central)) (g.linksFrom central) where
  once := (sortedIdsNodup _).filter _
  closed := by
    intro c member d link
    obtain ⟨_,apart⟩ := (memWithoutAscent there).mp member
    exact (memWithoutAscent there).mpr ⟨(endsOfTransition link).2,fun leads => apart (.head link leads)⟩
  first := by
    intro next member c left link
    obtain ⟨same,step⟩ := memLinksFrom.mp member
    cases forest.single _ _ _ link step
    exact ((memWithoutAscent there).mp left).2 (same ▸ .refl)

theorem memDescent (forest : g.IsForest) (there : central ∈ g.nodeIds) :
    v ∈ (g.descent central).reached ↔ g.Leads central v ∧ ¬ g.Leads v central := by
  constructor
  · intro reached
    obtain ⟨link,member,_,leads⟩ := descendFrom reached
    obtain ⟨same,step⟩ := memLinksFrom.mp member
    exact ⟨.head (same ▸ step) leads,((memWithoutAscent there).mp (descendReached reached)).2⟩
  · rintro ⟨below,apart⟩
    rcases Relation.ReflTransGen.cases_head below with rfl | ⟨next,step,leads⟩
    · exact absurd .refl apart
    · refine descendCovers (aheadDescent forest there) (memLinksFrom.mpr ⟨rfl,step⟩) ?_ leads
      refine (memWithoutAscent there).mpr ⟨(endsOfTransition step).2,fun back => ?_⟩
      cases leadsBack forest (.single step) back
      exact forest.acyclic _ (.single step)

theorem memDescentLeft (forest : g.IsForest) (there : central ∈ g.nodeIds) :
    v ∈ (g.descent central).unseen ↔ v ∈ g.nodeIds ∧ ¬ g.Leads v central ∧ ¬ g.Leads central v := by
  have shared := (descendPerm g (without (sortedIds g.nodeIds) (g.ascent central)) (g.linksFrom central)).mem_iff
    (a := v)
  rw [memWithoutAscent there,List.mem_append] at shared
  constructor
  · intro left
    obtain ⟨selected,apart⟩ := shared.mp (.inr left)
    refine ⟨selected,apart,fun below => ?_⟩
    exact descendApart (aheadDescent forest there).once ((memDescent forest there).mpr ⟨below,apart⟩) left
  · rintro ⟨selected,apart,beside⟩
    refine (shared.mpr ⟨selected,apart⟩).resolve_left fun reached => ?_
    exact beside ((memDescent forest there).mp reached).1

def others (g : SelectionGraph) (central : String) : Descent :=
  g.descend (g.descent central).unseen (g.origins.map fun id => (id,id))

theorem remainderParts (g : SelectionGraph) (central : String) :
    (g.remainder central).reached = (g.others central).reached ++
      (g.descend (g.others central).unseen ((sortedIds g.nodeIds).map fun id => (id,id))).reached := by
  rw [remainder,(descendAllDescends g _ _).1,List.map_append,descendAppend]
  rfl

theorem aheadOthers (forest : g.IsForest) (there : central ∈ g.nodeIds) :
    Ahead g (g.descent central).unseen (g.origins.map fun id => (id,id)) :=
  { aheadAfter forest (aheadDescent forest there) with
    first := by
      intro next member c _ link
      obtain ⟨o,listed,rfl⟩ := List.mem_map.mp member
      exact (memOrigins.mp listed).2 c link }

theorem leftBeside (forest : g.IsForest) (found : g.effectiveCentral = some central)
    (left : v ∈ (g.others central).unseen) : g.Beside v := by
  have there := effectiveCentralMem found
  obtain ⟨selected,apart,beside⟩ := (memDescentLeft forest there).mp (descendLeft left)
  obtain ⟨o,origin,leads⟩ := originAbove forest selected
  have above : g.Leads o central := by
    refine Classical.byContradiction fun other => ?_
    have pending : o ∈ (g.descent central).unseen := by
      refine (memDescentLeft forest there).mpr ⟨origin.1,other,fun below => ?_⟩
      cases originTop origin below
      exact other .refl
    have reached := descendCovers (aheadOthers forest there)
      (List.mem_map.mpr ⟨o,memOrigins.mpr origin,rfl⟩) pending leads
    exact descendApart (aheadOthers forest there).once reached left
  exact ⟨selected,central,found,apart,beside,o,above,leads⟩

theorem remainderLeft (reached : v ∈ (g.remainder central).reached) : v ∈ (g.descent central).unseen :=
  (descendAllPerm g (g.descent central).unseen _).mem_iff.mp (List.mem_append_left _ reached)

theorem hangsTogether (forest : g.IsForest) (named : "" ∉ g.nodeIds) (found : g.effectiveCentral = some central)
    (within : [u,w,v].Sublist g.plan.order) (first : Hangs g.plan.parents (some central) m u)
    (last : Hangs g.plan.parents (some central) m v) :
    Hangs g.plan.parents (some central) m w ∨ g.Beside u ∧ g.Beside w ∧ g.Beside v := by
  have there := effectiveCentralMem found
  have toFirst := hangsLeads first
  have toLast := hangsLeads last
  have selected : m ∈ g.nodeIds := leadsSelected toFirst (memOrder.mp (within.subset List.mem_cons_self))
  rw [orderParts found,List.append_assoc] at within
  by_cases above : g.Leads m central
  · have gone : v ∉ (g.descent central).reached ++ (g.remainder central).reached := fun reached =>
      ((reachedDown found).mp reached).2 (hangsAscends forest found last above)
    have row : [u,w,v].Pairwise g.Leads :=
      (ascentRow forest there).sublist (sublistLeft [u,w] within gone)
    obtain ⟨later,latest⟩ := List.pairwise_cons.mp row
    have toMiddle := toFirst.trans (later w (by simp))
    exact .inl (hangsBetween forest last toMiddle ((List.pairwise_cons.mp latest).1 v (by simp)))
  have below : g.Leads m w → Hangs g.plan.parents (some central) m w := hangsBelow forest named found above
  have within := sublistRight _ within fun member => above (toFirst.trans ((memAscent there).mp member))
  by_cases beneath : g.Leads central m
  · have reached : v ∈ (g.descent central).reached :=
      (memDescent forest there).mpr ⟨beneath.trans toLast,fun back => above (toLast.trans back)⟩
    have pending := (memWithoutAscent there).mpr ⟨selected,above⟩
    exact .inl (below (descendBetween forest (aheadDescent forest there) (fun _ => remainderLeft) pending
      within reached toFirst toLast))
  have apart : u ∉ (g.descent central).reached := fun reached =>
    (leadsEither forest ((memDescent forest there).mp reached).1 toFirst).elim beneath above
  have within := sublistRight _ within apart
  rw [remainderParts] at within
  by_cases other : u ∈ (g.others central).reached
  · -- In a tree of its own, all of which is walked down from its origin.
    obtain ⟨link,member,fresh,leads⟩ := descendFrom other
    obtain ⟨o,listed,rfl⟩ := List.mem_map.mp member
    have down : g.Leads o m := (leadsEither forest leads toFirst).elim id fun up =>
      originTop (memOrigins.mp listed) up ▸ .refl
    have ahead := aheadOthers forest there
    have reached : v ∈ (g.others central).reached := descendCovers ahead member fresh (down.trans toLast)
    exact .inl (below (descendBetween forest ahead (fun _ => descendReached) (aheadBelow ahead fresh down)
      within reached toFirst toLast))
  · have rest := sublistRight _ within other
    have beside : ∀ d ∈ [u,w,v], g.Beside d := fun d member =>
      leftBeside forest found (descendReached (rest.subset member))
    exact .inr ⟨beside u (by simp),beside w (by simp),beside v (by simp)⟩

theorem chainTorn (forest : g.IsForest) (named : "" ∉ g.nodeIds) (within : [u,w,v].Sublist g.plan.order)
    (opens : g.plan.chains.findD u [] = [m]) (other : g.plan.chains.findD w [] ≠ [m])
    (again : g.plan.chains.findD v [] = [m]) : g.Beside u ∧ g.Beside w ∧ g.Beside v := by
  have chained : ∀ d ∈ [u,w,v], Chained g g.plan.parents g.effectiveCentral d (g.plan.chains.findD d []) :=
    fun d member => planChained forest.acyclic (memOrder.mp (within.subset member))
  obtain ⟨central,found⟩ := centralFound (memOrder.mp (within.subset List.mem_cons_self))
  rw [found] at chained
  have hung : ∀ d ∈ [u,w,v], g.plan.chains.findD d [] = [m] →
      Hangs g.plan.parents (some central) m d ∧ Chained g g.plan.parents (some central) m [m] := by
    intro d member own
    rcases chainedRoot (own ▸ chained d member) with none | ⟨n,same,hangs,root⟩
    · nomatch none
    · cases List.singleton_inj.mp same
      exact ⟨hangs,root⟩
  obtain ⟨first,root⟩ := hung u (by simp) opens
  obtain ⟨last,_⟩ := hung v (by simp) again
  refine (hangsTogether forest named found within first last).resolve_left fun between => other ?_
  exact chainedOnce (chained w (by simp)) (chainedDown between root (List.cons_ne_nil m []))

end PathQuery.SelectionGraph
