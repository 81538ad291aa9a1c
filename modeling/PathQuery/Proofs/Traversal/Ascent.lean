import Mathlib.Logic.Relation
import PathQuery.Proofs.Traversal.Coverage
import PathQuery.Proofs.Traversal.Links

/-! The order in its three parts: what leads to the central node, what the central node leads to, and the
rest; and the links that each part records. -/
namespace PathQuery.SelectionGraph

variable {g : SelectionGraph} {central v : String}

def Leads (g : SelectionGraph) : String → String → Prop :=
  Relation.ReflTransGen fun c d => (c,d) ∈ g.transitions

theorem leadsSelected (leads : g.Leads v central) (there : central ∈ g.nodeIds) : v ∈ g.nodeIds := by
  rcases Relation.ReflTransGen.cases_head leads with rfl | ⟨next,link,_⟩
  · exact there
  · exact (endsOfTransition link).1

theorem climbLeads {unseen : List String} {steps : List Step}
    (start : ∀ id, .enter id ∈ steps → g.Leads id central) :
    ∀ id ∈ (g.climb unseen steps).entered, g.Leads id central := by
  fun_induction climb g unseen steps with
  | case1 unseen => exact fun _ member => absurd member List.not_mem_nil
  | case2 unseen id rest walk ih => exact ih fun other step => start other (List.mem_cons_of_mem _ step)
  | case3 unseen id rest fresh walk ih =>
      have here := start id List.mem_cons_self
      intro other member
      rcases List.mem_cons.mp member with rfl | member
      · exact here
      · refine ih ?_ other member
        intro above step
        rcases List.mem_append.mp step with pushed | left
        · obtain ⟨source,there,same⟩ := List.mem_map.mp pushed
          cases same
          exact .head (memSourcesOf.mp there) here
        · exact start above (List.mem_cons_of_mem _ (by simpa using left))
  | case4 unseen id rest seen ih => exact ih fun other step => start other (List.mem_cons_of_mem _ step)

theorem climbEnters {unseen : List String} {steps : List Step} {id : String} (fresh : id ∈ unseen)
    (step : .enter id ∈ steps) : id ∈ (g.climb unseen steps).entered := by
  fun_induction climb g unseen steps with
  | case1 unseen => exact absurd step List.not_mem_nil
  | case2 unseen first rest walk ih => exact ih fresh (by simpa using step)
  | case3 unseen first rest there walk ih =>
      by_cases same : id = first
      · exact same ▸ List.mem_cons_self
      · refine List.mem_cons_of_mem _ (ih ((List.mem_erase_of_ne same).mpr fresh) ?_)
        exact List.mem_append_right _ (List.mem_cons_of_mem _ (by simpa [same] using step))
  | case4 unseen first rest seen ih =>
      refine ih fresh ?_
      rcases List.mem_cons.mp step with same | later
      · cases same
        exact absurd fresh seen
      · exact later

theorem climbClosed {unseen : List String} {steps : List Step} {id source : String}
    (entered : id ∈ (g.climb unseen steps).entered) (link : (source,id) ∈ g.transitions)
    (fresh : source ∈ unseen) : source ∈ (g.climb unseen steps).entered := by
  fun_induction climb g unseen steps with
  | case1 unseen => exact absurd entered List.not_mem_nil
  | case2 unseen first rest walk ih => exact ih entered fresh
  | case3 unseen first rest there walk ih =>
      by_cases same : source = first
      · exact same ▸ List.mem_cons_self
      · have left := (List.mem_erase_of_ne same).mpr fresh
        refine List.mem_cons_of_mem _ ?_
        rcases List.mem_cons.mp entered with rfl | below
        · refine climbEnters left (List.mem_append_left _ ?_)
          exact List.mem_map.mpr ⟨source,memSourcesOf.mpr link,rfl⟩
        · exact ih below left
  | case4 unseen first rest seen ih => exact ih entered fresh

theorem memClimbed (there : central ∈ g.nodeIds) :
    v ∈ (g.climb (sortedIds g.nodeIds) [.enter central]).entered ↔ g.Leads v central := by
  constructor
  · refine climbLeads ?_ v
    intro id step
    cases List.mem_singleton.mp step
    exact .refl
  · intro leads
    induction leads using Relation.ReflTransGen.head_induction_on with
    | refl => exact climbEnters (memSortedIds.mpr there) List.mem_cons_self
    | head link _ ih => exact climbClosed ih link (memSortedIds.mpr (endsOfTransition link).1)

theorem memLeft (there : central ∈ g.nodeIds) :
    v ∈ (g.climb (sortedIds g.nodeIds) [.enter central]).left ↔ g.Leads v central := by
  have left := (climbLeft g (sortedIds g.nodeIds) [.enter central]).mem_iff (a := v)
  simp only [List.filterMap_cons,Step.leaves?,List.filterMap_nil,List.append_nil] at left
  exact left.trans (memClimbed there)

theorem memRising (there : central ∈ g.nodeIds) {link : String × String} :
    link ∈ (g.climb (sortedIds g.nodeIds) [.enter central]).entered.flatMap
        (fun id => (g.sourcesOf id).map (·,id)) ↔ link ∈ g.transitions ∧ g.Leads link.2 central := by
  simp only [List.mem_flatMap,List.mem_map,memClimbed there]
  constructor
  · rintro ⟨id,leads,source,member,rfl⟩
    exact ⟨memSourcesOf.mp member,leads⟩
  · rintro ⟨step,leads⟩
    exact ⟨link.2,leads,link.1,memSourcesOf.mpr step,rfl⟩

theorem parentParts (found : g.effectiveCentral = some central) :
    g.plan.parents = parentTable
      ((g.climb (sortedIds g.nodeIds) [.enter central]).entered.flatMap (fun id => (g.sourcesOf id).map (·,id)) ++
        (g.descent central).links ++ (g.remainder central).links) := by
  simp only [plan,emissionOrder,found]
  rfl

theorem memAscent (there : central ∈ g.nodeIds) : v ∈ g.ascent central ↔ g.Leads v central := by
  simp only [ascent,List.mem_append,List.mem_filter,memLeft there,List.mem_singleton,decide_eq_true_eq]
  constructor
  · rintro (⟨leads,_⟩ | rfl)
    · exact leads
    · exact .refl
  · intro leads
    by_cases last : v = central
    · exact .inr last
    · exact .inl ⟨leads,last⟩

theorem reachedDown (found : g.effectiveCentral = some central) :
    v ∈ (g.descent central).reached ++ (g.remainder central).reached ↔
      v ∈ g.nodeIds ∧ ¬ g.Leads v central := by
  have there := effectiveCentralMem found
  have once := orderNodup g
  have all : v ∈ g.plan.order ↔ v ∈ g.nodeIds := memOrder
  rw [orderParts found,List.append_assoc] at once all
  rw [← all,← memAscent there]
  constructor
  · intro down
    exact ⟨List.mem_append_right _ down,fun up => (List.nodup_append.mp once).2.2 v up v down rfl⟩
  · rintro ⟨listed,apart⟩
    exact (List.mem_append.mp listed).resolve_left apart

theorem memLinksFrom {id : String} {link : String × String} :
    link ∈ g.linksFrom id ↔ link.1 = id ∧ link ∈ g.transitions := by
  obtain ⟨source,target⟩ := link
  simp only [linksFrom,List.mem_map,memTargetsOf,Prod.mk.injEq]
  constructor
  · rintro ⟨_,there,rfl,rfl⟩
    exact ⟨rfl,there⟩
  · rintro ⟨rfl,there⟩
    exact ⟨target,there,rfl,rfl⟩

theorem memDescendLinks {unseen : List String} {links : List (String × String)} {link : String × String} :
    link ∈ (g.descend unseen links).links ↔
      link ∈ links ∨ link.1 ∈ (g.descend unseen links).reached ∧ link ∈ g.transitions := by
  fun_induction descend g unseen links with
  | case1 unseen => simp
  | case2 unseen first rest fresh walk ih =>
      simp only [List.mem_cons,walk,ih,List.mem_append,memLinksFrom]
      grind
  | case3 unseen first rest seen walk ih =>
      simp only [List.mem_cons,walk,ih,or_assoc]

theorem memDescendAllLinks {unseen ids : List String} {link : String × String} :
    link ∈ (g.descendAll unseen ids).links ↔
      link.1 ∈ (g.descendAll unseen ids).reached ∧ link ∈ g.transitions := by
  fun_induction descendAll g unseen ids with
  | case1 unseen => simp
  | case2 unseen id rest fresh walk more ih =>
      simp only [List.mem_append,List.mem_cons,more,ih,walk,memDescendLinks,memLinksFrom]
      grind
  | case3 unseen id rest seen ih => exact ih

theorem parentFound {links : List (String × String)} :
    (∃ source, (parentTable links).find? v = some source) ↔ ∃ source, (source,v) ∈ links := by
  suffices ∀ t : Table String String,
      (links.foldl (fun t link => t.insertNew link.2 link.1) t).contains v = true ↔
        t.contains v = true ∨ ∃ source, (source,v) ∈ links by
    have filled := this .empty
    rw [Table.contains,Option.isSome_iff_exists] at filled
    exact filled.trans (or_iff_right Bool.false_ne_true)
  induction links with
  | nil => simp
  | cons link rest ih =>
      intro t
      have step : (t.insertNew link.2 link.1).contains v = true ↔ t.contains v = true ∨ link.2 = v := by
        unfold Table.insertNew
        split
        · next there =>
          constructor
          · exact .inl
          · rintro (known | rfl)
            · exact known
            · exact there
        · simp [Table.containsInsert,or_comm]
      rw [List.foldl_cons,ih,step,or_assoc]
      refine or_congr_right ?_
      constructor
      · rintro (rfl | ⟨source,member⟩)
        · exact ⟨link.1,List.mem_cons_self⟩
        · exact ⟨source,List.mem_cons_of_mem _ member⟩
      · rintro ⟨source,member⟩
        rcases List.mem_cons.mp member with rfl | member
        · exact .inl rfl
        · exact .inr ⟨source,member⟩

end PathQuery.SelectionGraph
