import PathQuery.Proofs.Pattern.Drawing
import PathQuery.Proofs.Pattern.Growth
import PathQuery.Proofs.Traversal.Search

/-! Which variables nodes share. Two places on the paths of nodes have one variable just if the nodes are in
one context and the paths agree up to there; with full prefixes no two nodes share any. -/
namespace PathQuery

def SelectPattern.alongPath (p : SelectPattern) (v : String) : List Triple :=
  match p.firsts.find? v with
  | none => []
  | some first => ((p.emissions.filter (·.owner = some v)).dropWhile (·.id ≠ first)).map (·.triple)

def PathsAgree (first second : List String) : Prop :=
  first = second ∨ ∃ c d, first = [c] ∧ second = [d] ∧ classIri c = classIri d

variable {g : SelectionGraph} {full : Bool} {d : Draft} {order : List String} {into along : Blocks}
  {p : SelectPattern}

theorem ownedElsewhere {blocks : Blocks} (owned : ∀ v, ∀ e ∈ blocks v, e.owner = some v) {v : String}
    {ids : List String} (absent : v ∉ ids) : (ids.flatMap blocks).filter (·.owner = some v) = [] := by
  refine List.filter_eq_nil_iff.mpr fun e member => ?_
  obtain ⟨w,there,inside⟩ := List.mem_flatMap.mp member
  simp only [owned w e inside,decide_eq_true_eq,Option.some.injEq]
  rintro rfl
  exact absent there

theorem ownedBy (laid : Laid d order into along) (v : String) :
    d.log.entries.filter (·.owner = some v) = into v ++ along v := by
  rw [laid.entries]
  by_cases inside : v ∈ order
  · obtain ⟨before,after,whole,notBefore,notAfter⟩ := splitAt inside laid.once
    have own : (into v ++ along v).filter (·.owner = some v) = into v ++ along v :=
      List.filter_eq_self.mpr fun e member => by simp [laid.owned v e member]
    rw [whole,List.flatMap_append,List.flatMap_cons,List.filter_append,List.filter_append,own,
      ownedElsewhere laid.owned notBefore,ownedElsewhere laid.owned notAfter]
    simp
  · rw [ownedElsewhere laid.owned inside]
    simp [laid.absent v inside]

theorem alongPathLaid (laid : Laid d order into along) (v : String) :
    d.finish.alongPath v = (along v).map (·.triple) := by
  simp only [SelectPattern.alongPath,Draft.finish,laid.firsts,ownedBy laid]
  have distinct : ((into v ++ along v).map (·.id)).Nodup := by
    rw [← ownedBy laid]
    exact (List.filter_sublist.map _).nodup (laidDistinct laid)
  cases block : along v with
  | nil => rfl
  | cons first rest =>
      rw [block,List.map_append,List.nodup_append] at distinct
      have bridges : ∀ e ∈ into v, decide (e.id ≠ first.id) = true := fun e member =>
        decide_eq_true (distinct.2.2 e.id (List.mem_map.mpr ⟨e,member,rfl⟩) first.id (by simp))
      simp only [List.head?_cons,Option.map_some]
      rw [List.dropWhile_append_of_pos bridges,List.dropWhile_cons_of_neg (by simp)]

structure Spelled (g : SelectionGraph) (full : Bool) (p : SelectPattern) (names : Names Stretch) : Prop where
  apart : names.Apart
  pathless : ∀ v, (∀ n, g.node? v = some n → n.path = []) → p.alongPath v = []
  traced : ∀ v n, g.node? v = some n → n.path ≠ [] →
    (g.walker full v n).Traces names n.path (p.alongPath v) ∧
      ∃ x, p.selected.find? v = some x ∧
        names.given.find? ((g.walker full v n).stretchAt n.path (n.path.length - 1)) = some x

theorem patternSpelled (made : g.pattern full = .ok p) : ∃ names, Spelled g full p names := by
  obtain ⟨d,into,along,drawn,rfl⟩ := patternDrawn made
  refine ⟨d.names,drawn.apart,?_,?_⟩
  · intro v none
    rw [alongPathLaid drawn.toLaid,drawn.pathless v none,List.map_nil]
  · intro v n found path
    have member : v ∈ g.plan.order := SelectionGraph.memOrder.mpr (SelectionGraph.idOfNode found)
    rw [alongPathLaid drawn.toLaid]
    exact drawn.traced v member n found path

theorem alongPathOwned {names : Names Stretch} (spelled : Spelled g full p names) {v x : String} {t : Triple}
    (member : t ∈ p.alongPath v) (inside : x ∈ t.varNames) :
    ∃ stretch, stretch.context = g.contexts.findD v SelectionGraph.rootContext ∧
      stretch.owner = (if full then some v else none) ∧ names.given.find? stretch = some x := by
  by_cases none : ∀ n, g.node? v = some n → n.path = []
  · rw [spelled.pathless v none] at member
    nomatch member
  · obtain ⟨n,more⟩ := Classical.not_forall.mp none
    obtain ⟨found,path⟩ := Classical.not_imp.mp more
    exact (spelled.traced v n found path).1.own t member x inside

theorem alongPathsApart (made : g.pattern full = .ok p) {u v : String}
    (apart : g.contexts.findD u SelectionGraph.rootContext ≠ g.contexts.findD v SelectionGraph.rootContext ∨
      full = true ∧ u ≠ v) :
    ∀ t ∈ p.alongPath u, ∀ s ∈ p.alongPath v, ∀ x ∈ t.varNames, x ∉ s.varNames := by
  obtain ⟨names,spelled⟩ := patternSpelled made
  intro t first s second x here there
  obtain ⟨a,context,owner,found⟩ := alongPathOwned spelled first here
  obtain ⟨b,other,another,again⟩ := alongPathOwned spelled second there
  obtain rfl := spelled.apart a b x found again
  rcases apart with contexts | ⟨rfl,nodes⟩
  · exact contexts (context.symm.trans other)
  · exact nodes (by simpa using owner.symm.trans another)

theorem sameContext {u v : String} (first : u ∈ g.nodeIds) (second : v ∈ g.nodeIds) :
    g.contexts.findD u SelectionGraph.rootContext = g.contexts.findD v SelectionGraph.rootContext ↔
      g.contexts.find? u = g.contexts.find? v := by
  obtain ⟨a,here⟩ := SelectionGraph.contextFound first
  obtain ⟨b,there⟩ := SelectionGraph.contextFound second
  simp [Table.findD,here,there]

theorem lastPlace {path : List String} (some : path ≠ []) : HasVariable path (path.length - 1) := by
  have := List.length_pos_iff.mpr some
  exact ⟨by omega,.inr (by omega)⟩

theorem wholeTokens {path : List String} (long : 1 < path.length) :
    tokensUpTo path (path.length - 1) = path := by
  rw [tokensUpTo,if_neg (by omega),show path.length - 1 + 1 = path.length by omega,List.take_length]

theorem pathsAgreeIff {first second : List String} (here : first ≠ []) (there : second ≠ []) :
    first.length - 1 = second.length - 1 ∧
        tokensUpTo first (first.length - 1) = tokensUpTo second (second.length - 1) ↔
      PathsAgree first second := by
  obtain ⟨c,front,rfl⟩ := List.exists_cons_of_ne_nil here
  obtain ⟨d,back,rfl⟩ := List.exists_cons_of_ne_nil there
  cases front with
  | nil =>
      cases back with
      | nil =>
          simp only [PathsAgree,tokensUpTo,List.length_cons,List.length_nil,List.take_one,List.head?_cons,
            Option.toList_some,List.map_cons,List.map_nil,List.cons.injEq,and_true,true_and,if_true]
          constructor
          · exact fun same => .inr ⟨c,d,rfl,rfl,same⟩
          · rintro (rfl | ⟨_,_,rfl,rfl,same⟩)
            · rfl
            · exact same
      | cons e back => simp [PathsAgree]
  | cons e front =>
      rw [wholeTokens (by simp)]
      constructor
      · rintro ⟨lengths,tokens⟩
        cases back with
        | nil => simp at lengths
        | cons f back =>
            rw [wholeTokens (by simp)] at tokens
            exact .inl tokens
      · rintro (same | ⟨_,_,single,_⟩)
        · rw [← same,wholeTokens (by simp)]
          exact ⟨rfl,rfl⟩
        · simp at single

theorem samePlace {names : Names Stretch} (spelled : Spelled g false p names) {u v : String} {m n : SelectedNode}
    (first : u ∈ g.nodeIds) (second : v ∈ g.nodeIds) {i j : Nat} (here : HasVariable m.path i)
    (there : HasVariable n.path j) {x y : String}
    (found : names.given.find? ((g.walker false u m).stretchAt m.path i) = some x)
    (again : names.given.find? ((g.walker false v n).stretchAt n.path j) = some y) :
    x = y ↔ g.contexts.find? u = g.contexts.find? v ∧ i = j ∧ tokensUpTo m.path i = tokensUpTo n.path j := by
  have same : x = y ↔ (g.walker false u m).stretchAt m.path i = (g.walker false v n).stretchAt n.path j := by
    constructor
    · rintro rfl
      exact spelled.apart _ _ x found again
    · intro same
      exact Option.some.inj (found.symm.trans (same ▸ again))
  rw [same,Walker.stretchAtEq here.1 there.1,← sameContext first second]
  exact ⟨fun ⟨context,_,places⟩ => ⟨context,places⟩,fun ⟨context,places⟩ => ⟨context,rfl,places⟩⟩

/-- In one build, two places have one variable just if the contexts, the places and the tokens up to them
agree, and so two nodes have one select variable just if their contexts and whole paths do. In the build with
full prefixes two nodes share no variable. -/
theorem variablesFollowPrefixes {fully : SelectPattern} (made : g.pattern false = .ok p)
    (fullyMade : g.pattern true = .ok fully) {u v : String} {m n : SelectedNode}
    (first : g.node? u = some m) (second : g.node? v = some n) :
    (∀ i j, HasVariable m.path i → HasVariable n.path j →
      ∃ x y, variableAt m.path (p.alongPath u) i = some x ∧ variableAt n.path (p.alongPath v) j = some y ∧
        (x = y ↔ g.contexts.find? u = g.contexts.find? v ∧ i = j ∧
          tokensUpTo m.path i = tokensUpTo n.path j)) ∧
    (m.path ≠ [] → n.path ≠ [] →
      ∃ x y, p.selected.find? u = some x ∧ p.selected.find? v = some y ∧
        (x = y ↔ g.contexts.find? u = g.contexts.find? v ∧ PathsAgree m.path n.path)) ∧
    (u ≠ v → ∀ t ∈ fully.alongPath u, ∀ s ∈ fully.alongPath v, ∀ x ∈ t.varNames, x ∉ s.varNames) := by
  obtain ⟨names,spelled⟩ := patternSpelled made
  have left := SelectionGraph.idOfNode first
  have right := SelectionGraph.idOfNode second
  refine ⟨?_,?_,fun nodes => alongPathsApart fullyMade (.inr ⟨rfl,nodes⟩)⟩
  · intro i j here there
    have path : m.path ≠ [] := List.ne_nil_of_length_pos (by have := here.1; omega)
    have other : n.path ≠ [] := List.ne_nil_of_length_pos (by have := there.1; omega)
    obtain ⟨x,atFirst,found⟩ := (spelled.traced u m first path).1.named i here
    obtain ⟨y,atSecond,again⟩ := (spelled.traced v n second other).1.named j there
    exact ⟨x,y,atFirst,atSecond,samePlace spelled left right here there found again⟩
  · intro path other
    obtain ⟨_,x,atFirst,found⟩ := spelled.traced u m first path
    obtain ⟨_,y,atSecond,again⟩ := spelled.traced v n second other
    refine ⟨x,y,atFirst,atSecond,?_⟩
    rw [samePlace spelled left right (lastPlace path) (lastPlace other) found again,pathsAgreeIff path other]

def fieldNode (id : String) (path : List String) (multiple : Bool) : SelectedNode :=
  ⟨id,id,some ⟨id,"",multiple,.field,"",none,path⟩⟩

def stepTo (predicate value : String) : List String := ["urn:X","urn:y","urn:Z",predicate,value]

def siblingFields (multiple : Bool) : SelectionGraph :=
  { nodes := [fieldNode "c" ["urn:X"] false,fieldNode "m" (stepTo "urn:q" "urn:W") multiple,
      fieldNode "n" (stepTo "urn:r" "urn:V") false]
    edges := [⟨"c","m",.null,false⟩,⟨"c","n",.null,false⟩]
    central := some "c"
    count := [] }

theorem siblingsShareTheirStep : ∃ p fully, (siblingFields false).pattern false = .ok p ∧
    (siblingFields false).pattern true = .ok fully ∧
    (∃ x, variableAt (stepTo "urn:q" "urn:W") (p.alongPath "m") 2 = some x ∧
      variableAt (stepTo "urn:r" "urn:V") (p.alongPath "n") 2 = some x) ∧
    (∃ x y, p.selected.find? "m" = some x ∧ p.selected.find? "n" = some y ∧ x ≠ y) ∧
    ∀ t ∈ fully.alongPath "m", ∀ s ∈ fully.alongPath "n", ∀ x ∈ t.varNames, x ∉ s.varNames := by
  have sound : (siblingFields false).bridgeFault? = none := by decide
  obtain ⟨p,made⟩ := patternMade sound false
  obtain ⟨fully,fullyMade⟩ := patternMade sound true
  obtain ⟨places,selected,apart⟩ := variablesFollowPrefixes made fullyMade
    (show (siblingFields false).node? "m" = some (fieldNode "m" (stepTo "urn:q" "urn:W") false) by decide)
    (show (siblingFields false).node? "n" = some (fieldNode "n" (stepTo "urn:r" "urn:V") false) by decide)
  obtain ⟨x,y,first,second,same⟩ := places 2 2 (by decide) (by decide)
  obtain rfl := same.mpr ⟨by decide +kernel,rfl,by decide⟩
  obtain ⟨a,b,here,there,equal⟩ := selected (by decide) (by decide)
  refine ⟨p,fully,made,fullyMade,⟨x,first,second⟩,⟨a,b,here,there,?_⟩,apart (by decide)⟩
  intro both
  rcases (equal.mp both).2 with whole | ⟨_,_,single,_⟩
  · exact absurd whole (by decide)
  · nomatch single

end PathQuery
