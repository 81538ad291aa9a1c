import PathQuery.Proofs.Traversal.Chains

/-! What leads to the central node comes before it in the order, and where no way leads back, each node that
leads there comes after all of its sources. -/
namespace PathQuery.SelectionGraph

variable {g : SelectionGraph} {unseen done : List String} {steps : List Step} {central : String}

def Step.id : Step → String
  | .enter id => id
  | .leave id => id

/-- What lies ahead of a walk up of which some nodes have been left. Every step leads to all the nodes that are
left after it, and the sources of those have been left or are ahead of them. -/
structure Stacked (g : SelectionGraph) (unseen done : List String) (steps : List Step) : Prop where
  selected : ∀ id, .enter id ∈ steps → id ∈ g.nodeIds
  falls : steps.Pairwise fun a b => ∀ id, b = .leave id → Relation.TransGen (fun c d => (c,d) ∈ g.transitions) a.id id
  entered : ∀ id ∈ g.nodeIds, id ∉ unseen → id ∈ done ∨ .leave id ∈ steps
  above : ∀ s t, (s,t) ∈ g.transitions → .leave t ∈ steps →
    s ∈ done ∨ ∃ a : Step, a.id = s ∧ [a,.leave t].Sublist steps

theorem stackedStart (there : central ∈ g.nodeIds) : Stacked g (sortedIds g.nodeIds) [] [.enter central] where
  selected := by
    intro id step
    cases List.mem_singleton.mp step
    exact there
  falls := List.pairwise_singleton _ _
  entered := fun id selected left => absurd (memSortedIds.mpr selected) left
  above := fun s t _ step => by simp at step

theorem sublistBehind {α : Type} {a b first : α} {rest : List α} (within : [a,b].Sublist (first :: rest)) :
    a = first ∧ b ∈ rest ∨ [a,b].Sublist rest := by
  rcases List.sublist_cons_iff.mp within with later | ⟨tail,same,inside⟩
  · exact .inr later
  · cases same
    exact .inl ⟨rfl,List.singleton_sublist.mp inside⟩

theorem stackedLeave {id : String} {rest : List Step} (stacked : Stacked g unseen done (.leave id :: rest)) :
    Stacked g unseen (id :: done) rest where
  selected := fun other step => stacked.selected other (List.mem_cons_of_mem _ step)
  falls := (List.pairwise_cons.mp stacked.falls).2
  entered := by
    intro other selected seen
    rcases stacked.entered other selected seen with left | step
    · exact .inl (List.mem_cons_of_mem _ left)
    · rcases List.mem_cons.mp step with same | later
      · cases same
        exact .inl List.mem_cons_self
      · exact .inr later
  above := by
    intro s t link step
    rcases stacked.above s t link (List.mem_cons_of_mem _ step) with left | ⟨a,named,within⟩
    · exact .inl (List.mem_cons_of_mem _ left)
    · rcases sublistBehind within with ⟨rfl,_⟩ | later
      · cases named
        exact .inl List.mem_cons_self
      · exact .inr ⟨a,named,later⟩

theorem stackedEnter {id : String} {rest : List Step} (stacked : Stacked g unseen done (.enter id :: rest)) :
    Stacked g (unseen.erase id) done ((g.sourcesOf id).map .enter ++ .leave id :: rest) where
  selected := by
    intro other step
    rcases List.mem_append.mp step with pushed | left
    · obtain ⟨source,there,same⟩ := List.mem_map.mp pushed
      cases same
      exact (endsOfTransition (memSourcesOf.mp there)).1
    · exact stacked.selected other (List.mem_cons_of_mem _ (by simpa using left))
  falls := by
    obtain ⟨here,later⟩ := List.pairwise_cons.mp stacked.falls
    refine List.pairwise_append.mpr ⟨?_,List.pairwise_cons.mpr ⟨here,later⟩,?_⟩
    · exact List.pairwise_map.mpr (List.pairwise_of_forall fun _ _ _ same => nomatch same)
    · intro a pushed b step other same
      obtain ⟨source,there,rfl⟩ := List.mem_map.mp pushed
      have link := memSourcesOf.mp there
      rcases List.mem_cons.mp step with rfl | step
      · cases same
        exact .single link
      · exact .head link (here b step other same)
  entered := by
    intro other selected seen
    by_cases same : other = id
    · subst same
      exact .inr (by simp)
    · rcases stacked.entered other selected fun left => seen ((List.mem_erase_of_ne same).mpr left) with left | step
      · exact .inl left
      · exact .inr (List.mem_append_right _ (List.mem_cons_of_mem _ (by simpa using step)))
  above := by
    intro s t link step
    have skipped : (Step.leave id :: rest).Sublist ((g.sourcesOf id).map .enter ++ .leave id :: rest) :=
      List.sublist_append_right _ _
    by_cases same : t = id
    · subst same
      refine .inr ⟨.enter s,rfl,?_⟩
      have pushed : Step.enter s ∈ (g.sourcesOf t).map .enter := List.mem_map.mpr ⟨s,memSourcesOf.mpr link,rfl⟩
      exact (List.singleton_sublist.mpr pushed).append (List.singleton_sublist.mpr List.mem_cons_self)
    · have later : Step.leave t ∈ rest := by simpa [same] using step
      rcases stacked.above s t link (List.mem_cons_of_mem _ later) with left | ⟨a,named,within⟩
      · exact .inl left
      · rcases sublistBehind within with ⟨rfl,_⟩ | within
        · -- The node that was to be entered is now one that is to be left.
          cases named
          refine .inr ⟨.leave id,rfl,.trans ?_ skipped⟩
          exact List.cons_sublist_cons.mpr (List.singleton_sublist.mpr later)
        · exact .inr ⟨a,named,(within.cons _).trans skipped⟩

theorem stackedSkip (acyclic : ∀ a, ¬ Relation.TransGen (fun c d => (c,d) ∈ g.transitions) a a) {id : String}
    {rest : List Step} (stacked : Stacked g unseen done (.enter id :: rest)) (seen : id ∉ unseen) :
    Stacked g unseen done rest where
  selected := fun other step => stacked.selected other (List.mem_cons_of_mem _ step)
  falls := (List.pairwise_cons.mp stacked.falls).2
  entered := by
    intro other selected gone
    exact (stacked.entered other selected gone).imp_right (by simp)
  above := by
    have left : id ∈ done := by
      rcases stacked.entered id (stacked.selected id List.mem_cons_self) seen with left | step
      · exact left
      · have later : Step.leave id ∈ rest := by simpa using step
        exact absurd ((List.pairwise_cons.mp stacked.falls).1 _ later id rfl) (acyclic id)
    intro s t link step
    rcases stacked.above s t link (List.mem_cons_of_mem _ step) with gone | ⟨a,named,within⟩
    · exact .inl gone
    · rcases sublistBehind within with ⟨rfl,_⟩ | later
      · cases named
        exact .inl left
      · exact .inr ⟨a,named,later⟩

theorem climbPrecedes (acyclic : ∀ a, ¬ Relation.TransGen (fun c d => (c,d) ∈ g.transitions) a a) {s t : String}
    (link : (s,t) ∈ g.transitions) : ∀ done, Stacked g unseen done steps → t ∈ (g.climb unseen steps).left →
      s ∈ done ∨ [s,t].Sublist (g.climb unseen steps).left := by
  fun_induction climb g unseen steps with
  | case1 unseen => exact fun _ _ left => absurd left List.not_mem_nil
  | case2 unseen id rest walk ih =>
      intro done stacked left
      by_cases same : t = id
      · subst same
        rcases stacked.above s t link List.mem_cons_self with gone | ⟨a,named,within⟩
        · exact .inl gone
        · -- No node is left twice.
          have again : Step.leave t ∈ rest := by
            rcases sublistBehind within with ⟨_,later⟩ | later
            · exact later
            · exact later.subset (by simp)
          exact absurd ((List.pairwise_cons.mp stacked.falls).1 _ again t rfl) (acyclic t)
      · have later : t ∈ walk.left := (List.mem_cons.mp left).resolve_left same
        rcases ih (id :: done) (stackedLeave stacked) later with gone | within
        · rcases List.mem_cons.mp gone with rfl | gone
          · exact .inr (List.cons_sublist_cons.mpr (List.singleton_sublist.mpr later))
          · exact .inl gone
        · exact .inr (within.cons _)
  | case3 unseen id rest fresh walk ih => exact fun done stacked => ih done (stackedEnter stacked)
  | case4 unseen id rest seen ih => exact fun done stacked => ih done (stackedSkip acyclic stacked seen)

theorem ascentPrecedes (acyclic : ∀ a, ¬ Relation.TransGen (fun c d => (c,d) ∈ g.transitions) a a) {s t : String}
    (there : central ∈ g.nodeIds) (link : (s,t) ∈ g.transitions) (leads : g.Leads t central) :
    [s,t].Sublist (g.ascent central) := by
  have apart : s ≠ central := by
    rintro rfl
    exact acyclic s (.head' link leads)
  by_cases last : t = central
  · subst last
    refine (List.singleton_sublist.mpr (List.mem_filter.mpr ⟨?_,by simpa using apart⟩)).append (.refl _)
    exact (memLeft there).mpr (.single link)
  · have within := (climbPrecedes acyclic link [] (stackedStart there) ((memLeft there).mpr leads)).resolve_left
      List.not_mem_nil
    have kept := within.filter (· ≠ central)
    rw [List.filter_eq_self.mpr (by simp [apart,last])] at kept
    exact kept.trans (List.sublist_append_left _ _)

theorem risingLinks {link : String × String} :
    link ∈ g.emissionOrder.rising ↔ link ∈ g.transitions ∧ g.Ascends link.2 := by
  cases found : g.effectiveCentral with
  | none =>
      simp only [emissionOrder,found]
      refine iff_of_false List.not_mem_nil ?_
      rintro ⟨_,c,same,_⟩
      cases found.symm.trans same
  | some c =>
      simp only [emissionOrder,found]
      rw [memRising (effectiveCentralMem found)]
      refine and_congr_right fun _ => ⟨fun leads => ⟨c,found,leads⟩,?_⟩
      rintro ⟨_,same,leads⟩
      cases found.symm.trans same
      exact leads

/-- The order has each selected node once. What leads to the central node comes before it, the links recorded
on the way up are those into all that leads there, and if no way leads back then each of them leads onward in
the order. -/
theorem ancestorsFirst (g : SelectionGraph) :
    (∀ id, g.emissionOrder.order.count id = if id ∈ g.nodeIds then 1 else 0) ∧
    (∀ central, g.effectiveCentral = some central → ∀ v, v ≠ central → g.Leads v central →
      [v,central].Sublist g.emissionOrder.order) ∧
    (∀ link, link ∈ g.emissionOrder.rising ↔ link ∈ g.transitions ∧ g.Ascends link.2) ∧
    ((∀ a, ¬ Relation.TransGen (fun c d => (c,d) ∈ g.transitions) a a) →
      ∀ link ∈ g.emissionOrder.rising, [link.1,link.2].Sublist g.emissionOrder.order) := by
  have parts : ∀ {c}, g.effectiveCentral = some c → (g.ascent c).Sublist g.emissionOrder.order := by
    intro c found
    have order : g.emissionOrder.order = _ := orderParts found
    rw [order,List.append_assoc]
    exact List.sublist_append_left _ _
  refine ⟨fun id => ?_,fun c found v apart leads => ?_,fun _ => risingLinks,fun acyclic link member => ?_⟩
  · exact (List.Nodup.count (orderNodup g)).trans (if_congr memOrder rfl rfl)
  · refine List.Sublist.trans ?_ (parts found)
    have left := (memLeft (effectiveCentralMem found)).mpr leads
    exact (List.singleton_sublist.mpr (List.mem_filter.mpr ⟨left,by simpa using apart⟩)).append (.refl _)
  · obtain ⟨step,c,found,leads⟩ := risingLinks.mp member
    exact (ascentPrecedes acyclic (effectiveCentralMem found) step leads).trans (parts found)

def shortcut : SelectionGraph := branches [] ["a","b","c","d"] "c" [("a","b"),("b","c"),("a","c"),("c","d")]

theorem shortcutAncestorsFirst : shortcut.effectiveCentral = some "c" ∧
    shortcut.emissionOrder.order.count "d" = 1 ∧ ["a","c"].Sublist shortcut.emissionOrder.order ∧
    ("a","b") ∈ shortcut.emissionOrder.rising ∧ ("c","d") ∉ shortcut.emissionOrder.rising ∧
    ["a","b"].Sublist shortcut.emissionOrder.order := by
  have found : shortcut.effectiveCentral = some "c" := by decide +kernel
  have leads : shortcut.Leads "b" "c" := .single (by decide +kernel)
  obtain ⟨once,first,rising,onward⟩ := ancestorsFirst shortcut
  have member : ("a","b") ∈ shortcut.emissionOrder.rising :=
    (rising _).mpr ⟨by decide +kernel,"c",found,leads⟩
  refine ⟨found,by rw [once]; decide,first "c" found "a" (by decide) (.single (by decide +kernel)),member,?_,
    onward (acyclicOf (by decide +kernel)) _ member⟩
  intro down
  obtain ⟨_,c,same,back⟩ := (rising _).mp down
  cases found.symm.trans same
  exact acyclicOf (by decide +kernel) "c" (.head' (by decide +kernel) back)

end PathQuery.SelectionGraph
