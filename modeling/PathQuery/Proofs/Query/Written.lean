import PathQuery.Proofs.Count.Joining
import PathQuery.Proofs.Query.Block

/-! The triples that a query has lines for, in its body and in its counts. Each gives a variable a class or links
two variables, and each IRI in it is one of the selection's. -/
namespace PathQuery
open SelectionGraph (missing)

structure SelectionGraph.Spelled (fits : String → Prop) (g : SelectionGraph) : Prop where
  tokens : ∀ n ∈ g.nodes, ∀ token ∈ n.path, fits (classIri token)
  bridges : ∀ e ∈ g.edges, fits (classIri e.bridgePredicate)

inductive Triple.Formed (fits : String → Prop) : Triple → Prop where
  | kind {name iri : String} (word : IsWord name.toList) (fit : fits iri) : Formed fits (typeTriple name iri)
  | link {source iri target : String} (start : IsWord source.toList) (fit : fits iri)
      (stop : IsWord target.toList) : Formed fits ⟨.var source,.iri iri,.var target⟩

variable {fits : String → Prop} {g : SelectionGraph}

theorem spelledRestrict (spelled : g.Spelled fits) (ids : List String) : (g.restrict ids).Spelled fits where
  tokens := fun n member => spelled.tokens n (List.mem_filter.mp member).1
  bridges := fun e member => spelled.bridges e (List.mem_filter.mp member).1

theorem spelledCentral (spelled : g.Spelled fits) (id : String) : (g.withCentral id).Spelled fits :=
  ⟨spelled.tokens,spelled.bridges⟩

theorem spelledAny (g : SelectionGraph) : g.Spelled fun _ => True :=
  ⟨fun _ _ _ _ => trivial,fun _ _ => trivial⟩

theorem formedLink {source token target : String} (start : IsWord source.toList) (fit : fits (classIri token))
    (stop : IsWord target.toList) : (linkTriple source token target).Formed fits := by
  unfold classIri at fit
  unfold linkTriple
  split
  next iri inverse parts =>
    rw [parts] at fit
    split
    · exact .link stop fit start
    · exact .link start fit stop

theorem formedAsked (spelled : g.Spelled fits) {t : Triple} (asked : g.Asks t) : t.Formed fits := by
  cases asked with
  | path node walk =>
      cases walk with
      | kind word member => exact .kind word (spelled.tokens _ node _ (evensSubset member))
      | link start stop member => exact formedLink start (spelled.tokens _ node _ member) stop
  | bridge edge _ start stop => exact formedLink start (spelled.bridges _ edge) stop

theorem formedRename {names : Renaming} (words : names.Words) {t : Triple} (formed : t.Formed fits) :
    (t.rename names).Formed fits := by
  cases formed with
  | kind word fit =>
      obtain ⟨name,renamed,same⟩ := renameWord words word
      rw [Triple.rename,typeTriple,same]
      exact .kind renamed fit
  | link start fit stop =>
      obtain ⟨source,first,same⟩ := renameWord words start
      obtain ⟨target,last,alike⟩ := renameWord words stop
      rw [Triple.rename,same,alike]
      exact .link first fit last

theorem formedAnchored {t : Triple} (formed : t.Formed fits) : t.Anchored := by
  cases formed with
  | kind word fit => exact ⟨_,rfl⟩
  | link start fit stop => exact ⟨_,rfl⟩

theorem recordsFormed {p : SelectPattern} {full : Bool} (spelled : g.Spelled fits)
    (made : g.pattern full = .ok p) : ∀ t ∈ p.records.keys, t.Formed fits := by
  intro t recorded
  have sourced := patternSourced made
  obtain ⟨e,there,rfl⟩ := (sourced.recorded t).mp (Table.containsIff.mpr recorded)
  exact formedAsked spelled (sourced.asked e there)

def SelectPattern.writes (outer : SelectPattern) (counts : Counts) : List Triple :=
  writtenTriples (outer.toPattern.lines []) ++ counts.blocks.flatMap fun b => writtenTriples b.body

variable {o : QueryOptions} {parts : SelectPattern × Counts}

theorem joiningWords {full : Bool} {outer : SelectPattern} (made : g.outer.pattern full = .ok outer)
    (sub : SelectPattern) (node : String) : (g.joining outer sub node).Words :=
  parentRenamingWords _ fun _ found => parentVariableWord (patternSelected made) found

theorem writesFormed (spelled : g.Spelled fits) (done : g.parts o = .ok parts) :
    ∀ t ∈ parts.1.writes parts.2, t.Formed fits := by
  obtain ⟨made,counted⟩ := partsDone done
  intro t member
  rcases List.mem_append.mp member with body | block
  · obtain ⟨_,recorded,_⟩ := (Pattern.writtenLines _ _ _).mp body
    exact recordsFormed (spelledRestrict spelled _) made t (Table.containsIff.mp recorded)
  · obtain ⟨b,there,inside⟩ := List.mem_flatMap.mp block
    obtain ⟨node,sub,origin⟩ := blockOrigin counted there
    obtain ⟨members,_,own⟩ := origin.made
    obtain ⟨source,lacked,rfl⟩ := (originWritten origin t).mp inside
    have formed := recordsFormed (spelledCentral (spelledRestrict spelled _) node) own source
      (memMissing.mp lacked).1
    exact formedRename (joiningWords made sub node) formed

end PathQuery
