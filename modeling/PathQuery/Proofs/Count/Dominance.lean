import PathQuery.Proofs.Count.Partition

/-! What can be reached only through a count node always belongs to its closure. The closure may have more:
where two ways meet, the node belongs to the one by which it was found first. -/
namespace PathQuery

def SelectionGraph.OnlyThrough (g : SelectionGraph) (central k v : String) : Prop :=
  g.Reaches central v ∧ ∀ nodes, g.Way central v nodes → k ∈ nodes

open CountClosures

variable {g : SelectionGraph} {central k v : String} {ids : List String}

theorem throughBelow (given : g.effectiveCentral = some central) (through : g.OnlyThrough central k v) :
    g.centralTree.Below k v := by
  have hung := centralHung given
  obtain ⟨reached,each⟩ := through
  have there := (centralReaches given v).mpr reached
  obtain ⟨nodes,way,above⟩ := Tree.belowWay hung (Tree.belowRoot hung there)
  exact above k (each nodes way)

def ClosedBut (g : SelectionGraph) (ids : List String) (k : String) : Prop :=
  ∀ w ∈ ids, w ≠ k → ∀ u, g.Adjacent w u → u ∈ ids

theorem closedThrough (closed : ClosedBut g ids k) (start : central ∈ ids → central = k) {nodes : List String}
    (way : g.Way central v nodes) (inside : v ∈ ids) : k ∈ nodes := by
  induction way with
  | stay => exact List.mem_singleton.mpr (start inside).symm
  | @step v w nodes before link ih =>
      by_cases here : w = k
      · exact List.mem_append_right _ (List.mem_singleton.mpr here.symm)
      · exact List.mem_append_left _ (ih (closed w inside here v link.symm))

/-- A closure has all that is reached only through its count node, and nothing else just if no other node
of it has a neighbour outside. -/
theorem closureDominatedIff (given : g.effectiveCentral = some central) (listed : k ∈ g.count)
    (reached : g.Reaches central k) :
    ∃ ids, (ofGraph g).members.find? k = some ids ∧ (∀ v, g.OnlyThrough central k v → v ∈ ids) ∧
      ((∀ v, v ∈ ids ↔ g.OnlyThrough central k v) ↔ ClosedBut g ids k) := by
  obtain ⟨ids,found⟩ := ((closuresCut given).recorded k).mpr ⟨listed,reached⟩
  have hung := centralHung given
  have whole : ∀ v, g.OnlyThrough central k v → v ∈ ids := fun v through =>
    (memClosure given found).mpr (throughBelow given through)
  have reaches : ∀ v ∈ ids, g.Reaches central v := by
    intro v inside
    refine (centralReaches given v).mp (Tree.belowThere ?_ ((memClosure given found).mp inside))
    exact (centralReaches given k).mpr reached
  refine ⟨ids,found,whole,?_⟩
  constructor
  · intro exactly w inside other u link
    obtain ⟨⟨nodes,way⟩,_⟩ := (exactly w).mp inside
    refine whole u ⟨⟨_,.step way link⟩,fun further onward => ?_⟩
    have through := ((exactly w).mp inside).2 _ (.step onward link.symm)
    rcases List.mem_append.mp through with earlier | last
    · exact earlier
    · exact absurd (List.mem_singleton.mp last).symm other
  · intro closed v
    refine ⟨fun inside => ⟨reaches v inside,fun nodes way => ?_⟩,whole v⟩
    refine closedThrough closed (fun top => ?_) way inside
    cases (memClosure given found).mp top with
    | here => rfl
    | down _ link => exact absurd link (Tree.rootFree hung)

def branching (links : List (String × String)) : SelectionGraph :=
  { nodes := ["c","a","b","v"].map fun id => ⟨id,id,none⟩
    edges := links.map fun link => ⟨link.1,link.2,.null,false⟩
    central := some "c"
    count := ["a"] }

def fork : SelectionGraph := branching [("c","a"),("c","b"),("a","v")]

def diamond : SelectionGraph := branching [("c","a"),("c","b"),("a","v"),("b","v")]

theorem forkDominated : fork.effectiveCentral = some "c" ∧
    ∃ ids, (ofGraph fork).members.find? "a" = some ids ∧ "v" ∈ ids ∧
      ∀ v, v ∈ ids ↔ fork.OnlyThrough "c" "a" v := by
  have given : fork.effectiveCentral = some "c" := by decide +kernel
  have reached : fork.Reaches "c" "a" := ⟨_,.step .stay (by decide +kernel)⟩
  obtain ⟨ids,found,_,same⟩ := closureDominatedIff given (by decide) reached
  have members : (ofGraph fork).members.find? "a" = some ["a","v"] := by decide +kernel
  cases members.symm.trans found
  have closed : ∀ w ∈ ["a","v"], w ≠ "a" → ∀ u ∈ fork.neighboursOf w, u ∈ ["a","v"] := by decide +kernel
  refine ⟨given,_,found,by decide,same.mpr fun w inside other u link => ?_⟩
  exact closed w inside other u (SelectionGraph.memAdjacent.mpr link)

theorem diamondCornerUndominated : diamond.effectiveCentral = some "c" ∧ "a" ∈ diamond.count ∧
    diamond.Reaches "c" "a" ∧ ∃ ids, (ofGraph diamond).members.find? "a" = some ids ∧
      "v" ∈ ids ∧ ¬ diamond.OnlyThrough "c" "a" "v" := by
  refine ⟨by decide +kernel,by decide,⟨_,.step .stay (by decide +kernel)⟩,["a","v"],by decide +kernel,by decide,?_⟩
  intro through
  have around : diamond.Way "c" "v" (["c"] ++ ["b"] ++ ["v"]) :=
    .step (.step .stay (by decide +kernel)) (by decide +kernel)
  exact absurd (through.2 _ around) (by decide)

end PathQuery
