import PathQuery.Proofs.Count.Body
import PathQuery.Proofs.Query.Line

/-! How the variables of a count are joined to those of the outer pattern: the variable that its parent
has in the count's own pattern takes the name that the parent has outside. -/
namespace PathQuery
open SelectionGraph (parentVariable parentRenaming missing covered)

def joinedName (inner outer : Option String) (x : String) : String :=
  if inner = some x then outer.getD x else x

theorem joinedInner {inner outer : Option String} {x p : String} (here : inner = some x) (given : outer = some p) :
    joinedName inner outer x = p := by simp [joinedName,here,given]

theorem joinedOther {inner : Option String} {x : String} (other : inner ≠ some x) (outer : Option String) :
    joinedName inner outer x = x := if_neg other

theorem joinedAlone (inner : Option String) (x : String) : joinedName inner none x = x := by
  simp [joinedName]

theorem joinedParent {inner outer : Option String} {p : String} (given : outer = some p) :
    joinedName inner outer p = p := by
  simp [joinedName,given]

theorem joinedMeet {inner outer : Option String} {x y : String}
    (same : joinedName inner outer x = joinedName inner outer y) :
    x = y ∨ outer = some (joinedName inner outer x) := by
  cases given : outer with
  | none =>
      rw [given,joinedAlone,joinedAlone] at same
      exact .inl same
  | some p =>
      by_cases first : inner = some x
      · exact .inr (by rw [joinedInner first rfl])
      · by_cases second : inner = some y
        · rw [given,joinedInner second rfl] at same
          exact .inr (by rw [same])
        · rw [joinedOther first,joinedOther second] at same
          exact .inl same

theorem joinedFrom {inner outer : Option String} {x y : String} :
    joinedName inner outer y = x ↔
      (x = y ∧ (inner = some x → outer = none ∨ outer = inner)) ∨ (outer = some x ∧ inner = some y) := by
  constructor
  · intro joined
    by_cases here : inner = some y
    · cases given : outer with
      | none =>
          rw [given,joinedAlone] at joined
          exact .inl ⟨joined.symm,fun _ => .inl rfl⟩
      | some p =>
          rw [joinedInner here given] at joined
          exact .inr ⟨by rw [joined],here⟩
    · rw [joinedOther here] at joined
      exact .inl ⟨joined.symm,fun same => absurd (joined ▸ same) here⟩
  · intro taken
    rcases taken with ⟨rfl,kept⟩ | ⟨given,here⟩
    · by_cases here : inner = some x
      · rcases kept here with none | same
        · rw [none,joinedAlone]
        · exact joinedInner here (same.trans here)
      · exact joinedOther here outer
    · exact joinedInner here given

theorem renameVariable {inner outer : Option String} (words : ∀ p ∈ outer, IsWord p.toList) (x : String) :
    (Term.var x).rename (parentRenaming inner outer) = .var (joinedName inner outer x) := by
  unfold parentRenaming
  split
  · next a b =>
    by_cases same : a = b
    · subst same
      rw [if_pos rfl,Term.renameEmpty]
      by_cases here : a = x
      · subst here; simp [joinedName]
      · simp [joinedName,here]
    · rw [if_neg same]
      have found : (Table.ofList [(a,b)]).find? x = if a = x then some b else none := by
        rw [show Table.ofList [(a,b)] = Table.empty.insert a b from rfl,Table.findInsert]
        rfl
      by_cases here : a = x
      · rw [if_pos here] at found
        simp only [Term.rename,found]
        rw [variableNameWord (words b rfl),joinedInner (congrArg some here) rfl]
      · rw [if_neg here] at found
        simp only [Term.rename,found]
        rw [joinedOther (by simpa using here)]
  · next apart =>
    rw [Term.renameEmpty]
    cases inner with
    | none => rfl
    | some a => cases outer with
      | none => rw [joinedAlone]
      | some b => exact absurd rfl (apart a b rfl)

theorem renameNames {inner outer : Option String} (words : ∀ p ∈ outer, IsWord p.toList) (t : Triple) :
    (t.rename (parentRenaming inner outer)).varNames = t.varNames.map (joinedName inner outer) := by
  have each : ∀ term : Term, (term.rename (parentRenaming inner outer)).name? =
      term.name?.map (joinedName inner outer) := by
    intro term
    cases term with
    | var x => rw [renameVariable words]; rfl
    | iri value => rfl
  have terms : (t.rename (parentRenaming inner outer)).terms =
      t.terms.map (Term.rename (parentRenaming inner outer)) := rfl
  rw [Triple.varNames,terms,List.filterMap_map,Triple.varNames,List.map_filterMap]
  congr 1
  funext term
  exact each term

def SelectionGraph.parentIn (g : SelectionGraph) (p : SelectPattern) (node : String) : Option String :=
  parentVariable p ((CountClosures.ofGraph g).parents.find? node)

def SelectionGraph.joining (g : SelectionGraph) (outer sub : SelectPattern) (node : String) : Renaming :=
  parentRenaming (g.parentIn sub node) (g.parentIn outer node)

structure BlockOrigin (g : SelectionGraph) (namespaces : NamespaceTable) (full : Bool) (outer : SelectPattern)
    (b : CountBlock) (node : String) (sub : SelectPattern) : Prop where
  made : ∃ members, (node,members) ∈ (CountClosures.ofGraph g).members.entries ∧
    g.countPattern full members ((CountClosures.ofGraph g).parents.find? node) node = .ok sub
  counted : sub.selected.find? node = some b.counted
  parent : b.parent = g.parentIn outer node
  body : b.body = SelectionGraph.countBody namespaces outer sub (g.joining outer sub node)
    (g.droppedComments ((CountClosures.ofGraph g).parents.find? node) node)

variable {g : SelectionGraph} {namespaces : NamespaceTable} {full : Bool} {outer sub : SelectPattern}
  {b : CountBlock} {node : String}

theorem blockOrigin {zero : Bool} {counts : Counts}
    (counted : Counts.ofGraph g outer (CountClosures.ofGraph g) namespaces zero full = .ok counts)
    (member : b ∈ counts.blocks) : ∃ node sub, BlockOrigin g namespaces full outer b node sub := by
  obtain ⟨⟨node,members⟩,listed,sub,t,tally,block⟩ := blockSource counted member
  refine ⟨node,sub,⟨members,listed,tally.made⟩,block.counted ▸ tally.counted,
    block.parent.trans tally.parent,?_⟩
  rw [block.body,tally.body,tally.parent]
  rfl

theorem soleOrigin {id : String} {members : List String}
    (sole : (CountClosures.ofGraph g).members.entries = [(id,members)])
    (origin : BlockOrigin g namespaces full outer b node sub) :
    node = id ∧ g.countPattern full members ((CountClosures.ofGraph g).parents.find? id) id = .ok sub := by
  obtain ⟨others,listed,made⟩ := origin.made
  rw [sole] at listed
  cases List.mem_singleton.mp listed
  exact ⟨rfl,made⟩

theorem originWritten (origin : BlockOrigin g namespaces full outer b node sub) (t : Triple) :
    t ∈ writtenTriples b.body ↔
      ∃ source ∈ missing outer sub (g.joining outer sub node),
        source.rename (g.joining outer sub node) = t := by
  obtain ⟨members,_,made⟩ := origin.made
  rw [origin.body]
  exact writtenBody namespaces outer (patternSourced made) _ (droppedAreNotes g _ _) t

theorem joiningVariable (made : g.outer.pattern full = .ok outer) (sub : SelectPattern) (node x : String) :
    (Term.var x).rename (g.joining outer sub node) =
      .var (joinedName (g.parentIn sub node) (g.parentIn outer node) x) :=
  renameVariable (fun _ found => parentVariableWord (patternSelected made) found) x

theorem joiningNames (made : g.outer.pattern full = .ok outer) (sub : SelectPattern) (node : String)
    (t : Triple) : (t.rename (g.joining outer sub node)).varNames =
      t.varNames.map (joinedName (g.parentIn sub node) (g.parentIn outer node)) :=
  renameNames (fun _ found => parentVariableWord (patternSelected made) found) t

end PathQuery
