import PathQuery.Traversal.Plan

/-! Every link of a traversal is a transition of the selection, and so is every step from a parent to
its child. -/
namespace PathQuery.SelectionGraph

variable {g : SelectionGraph}

def Linked (g : SelectionGraph) (links : List (String × String)) : Prop := ∀ link ∈ links, link ∈ g.transitions

theorem linkedAppend {first second : List (String × String)} (a : g.Linked first) (b : g.Linked second) :
    g.Linked (first ++ second) := by
  intro link member
  rcases List.mem_append.mp member with member | member
  · exact a link member
  · exact b link member

theorem linkedFrom (id : String) : g.Linked (g.linksFrom id) := by
  intro link member
  obtain ⟨target,there,rfl⟩ := List.mem_map.mp member
  exact memTargetsOf.mp there

theorem linkedRising (entered : List String) :
    g.Linked (entered.flatMap fun id => (g.sourcesOf id).map (·,id)) := by
  intro link member
  obtain ⟨id,_,member⟩ := List.mem_flatMap.mp member
  obtain ⟨source,there,rfl⟩ := List.mem_map.mp member
  exact memSourcesOf.mp there

theorem descendLinked {unseen : List String} {links : List (String × String)} (linked : g.Linked links) :
    g.Linked (g.descend unseen links).links := by
  fun_induction descend g unseen links with
  | case1 unseen => exact linked
  | case2 unseen link rest fresh walk ih =>
      have further := ih (linkedAppend (linkedFrom link.2) fun l member => linked l (List.mem_cons_of_mem _ member))
      intro l member
      rcases List.mem_cons.mp member with rfl | member
      · exact linked l (by simp)
      · exact further l member
  | case3 unseen link rest seen walk ih =>
      have further := ih fun l member => linked l (List.mem_cons_of_mem _ member)
      intro l member
      rcases List.mem_cons.mp member with rfl | member
      · exact linked l (by simp)
      · exact further l member

theorem descendAllLinked (unseen ids : List String) : g.Linked (g.descendAll unseen ids).links := by
  fun_induction descendAll g unseen ids with
  | case1 unseen => exact fun _ member => nomatch member
  | case2 unseen id rest fresh walk more ih => exact linkedAppend (descendLinked (linkedFrom id)) ih
  | case3 unseen id rest seen ih => exact ih

theorem parentTableEntries {links : List (String × String)} {entry : String × String}
    (member : entry ∈ (parentTable links).entries) : (entry.2,entry.1) ∈ links := by
  suffices ∀ t : Table String String,
      entry ∈ (links.foldl (fun t link => t.insertNew link.2 link.1) t).entries →
        entry ∈ t.entries ∨ (entry.2,entry.1) ∈ links by
    rcases this .empty member with none | there
    · nomatch none
    · exact there
  clear member
  induction links with
  | nil => exact fun t member => .inl member
  | cons link rest ih =>
      intro t member
      rcases ih _ member with before | later
      · rcases Table.memInsertNew before with rfl | old
        · exact .inr (by simp)
        · exact .inl old
      · exact .inr (List.mem_cons_of_mem _ later)

theorem parentsLinked {child parent : String} (member : (child,parent) ∈ g.plan.parents.entries) :
    (parent,child) ∈ g.transitions := by
  have parents : ∀ {links}, g.Linked links → (child,parent) ∈ (parentTable links).entries →
      (parent,child) ∈ g.transitions := fun linked there => linked _ (parentTableEntries there)
  change (child,parent) ∈ g.emissionOrder.parents.entries at member
  unfold emissionOrder at member
  split at member
  · exact parents (descendAllLinked _ _) member
  · exact parents (linkedAppend (linkedAppend (linkedRising _) (descendLinked (linkedFrom _)))
      (descendAllLinked _ _)) member

end PathQuery.SelectionGraph
