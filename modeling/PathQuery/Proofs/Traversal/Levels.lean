import PathQuery.Proofs.Traversal.Chains
import PathQuery.Proofs.Traversal.Shortest

/-! The depths of a selection. No depth is further from that of the central node than the node itself is, and
where no way goes round, every edge leads one level down. -/
namespace PathQuery.SelectionGraph

variable {g : SelectionGraph} {root central v : String} {depth : Int}

theorem signedSeeds (g : SelectionGraph) : g.signedDepths = Breadth.forest g.depthSteps (sortedIds g.nodeIds)
    ((g.effectiveCentral.toList ++ sortedIds g.nodeIds).map fun id => [(id,0)]) := rfl

theorem signedOnce (g : SelectionGraph) : (g.signedDepths.map Prod.fst).Nodup :=
  (Breadth.forestOnce (sortedIdsNodup _)).1

theorem signedFound : (∃ depth, (v,depth) ∈ g.signedDepths) ↔ v ∈ g.nodeIds := by
  have listed : v ∈ g.signedDepths.map Prod.fst ↔ v ∈ g.nodeIds := by
    constructor
    · exact fun found => memSortedIds.mp ((Breadth.forestOnce (sortedIdsNodup _)).2 v found)
    · intro there
      have sorted := memSortedIds.mpr there
      refine Breadth.forestCovers (sortedIdsNodup _) sorted ⟨[(v,0)],?_,by simp⟩
      exact List.mem_map.mpr ⟨v,List.mem_append_right _ sorted,rfl⟩
  rw [← listed,List.mem_map]
  exact ⟨fun ⟨depth,member⟩ => ⟨_,member,rfl⟩,fun ⟨node,member,same⟩ => ⟨node.2,same ▸ member⟩⟩

theorem centralPart (found : g.effectiveCentral = some central) :
    ∃ part, Part g central (g.Placed central) part ∧ ∀ node ∈ part, node ∈ g.signedDepths := by
  have there := memSortedIds.mpr (effectiveCentralMem found)
  have grown := grownPart (depthsOutward g central) (placedRoot g central) (sortedIdsNodup _) (walledIds g) there
  refine ⟨_,grown.1,fun node member => ?_⟩
  rw [signedSeeds,found,Option.toList_some,List.singleton_append,forestSeed,if_pos there]
  exact List.mem_append_left _ member

theorem centralZero (found : g.effectiveCentral = some central) : (central,0) ∈ g.signedDepths := by
  obtain ⟨part,whole,inside⟩ := centralPart found
  obtain ⟨depth,member⟩ := whole.whole central (.refl _)
  cases rootPlaced (whole.placed _ member)
  exact inside _ member

theorem lowestOf (depths : List Int) : lowest depths ∈ 0 :: depths ∧ ∀ d ∈ 0 :: depths, lowest depths ≤ d :=
  List.min?_eq_some_iff.mp (@List.min?_cons' Int 0 _ depths)

theorem depthFound : g.depths.find? v = some depth ↔
    ∃ signed, (v,signed) ∈ g.signedDepths ∧ depth = signed - lowest (g.signedDepths.map (·.2)) := by
  have keys : g.depths.keys = g.signedDepths.map Prod.fst := by
    simp [depths,Table.keys,Function.comp_def]
  have once : g.depths.keys.Nodup := keys ▸ signedOnce g
  have entry : g.depths.find? v = some depth ↔ (v,depth) ∈ g.depths.entries :=
    ⟨Table.findMem,Table.findEntry once⟩
  rw [entry,depths,List.mem_map]
  constructor
  · rintro ⟨node,member,same⟩
    cases same
    exact ⟨node.2,member,rfl⟩
  · rintro ⟨signed,member,rfl⟩
    exact ⟨(v,signed),member,rfl⟩

theorem sinksOnce (oneWay : ∀ s t, (s,t) ∈ g.transitions → (t,s) ∉ g.transitions) {way : g.undirected.Walk v root}
    {other : Int} (one : g.Sinks way depth) (second : g.Sinks way other) : depth = other := by
  induction way generalizing depth other with
  | nil => exact Eq.trans (show depth = 0 from one) (show other = 0 from second).symm
  | cons adj way ih =>
      obtain ⟨before,above,step⟩ := one
      obtain ⟨again,also,another⟩ := second
      cases ih above also
      rcases step with ⟨down,rfl⟩ | ⟨up,rfl⟩ <;> rcases another with ⟨link,rfl⟩ | ⟨link,rfl⟩
      · rfl
      · exact absurd link (oneWay _ _ down)
      · exact absurd link (oneWay _ _ up)
      · rfl

theorem placedLink (acyclic : g.undirected.IsAcyclic) (oneWay : ∀ s t, (s,t) ∈ g.transitions → (t,s) ∉ g.transitions)
    {s t : String} (link : (s,t) ∈ g.transitions) {a b : Int} (first : g.Placed root s a)
    (second : g.Placed root t b) : b = a + 1 := by
  obtain ⟨way,short,above⟩ := first
  obtain ⟨other,also,below⟩ := second
  have apart : s ≠ t := by
    rintro rfl
    exact oneWay s s link link
  have adj : g.undirected.Adj s t := undirectedAdj.mpr ⟨apart,.inl link⟩
  have same : ∀ {v} (one two : g.undirected.Walk v root), one.length = g.undirected.dist v root →
      two.length = g.undirected.dist v root → one = two := by
    intro v one two here there
    exact congrArg Subtype.val ((acyclic.subsingleton_path v root).elim
      ⟨one,one.isPath_of_length_eq_dist here⟩ ⟨two,two.isPath_of_length_eq_dist there⟩)
  have reachable : g.undirected.Reachable root s := way.reachable.symm
  have next := acyclic.dist_eq_dist_add_one_of_adj_of_reachable root adj reachable
  rw [SimpleGraph.dist_comm (u := root),SimpleGraph.dist_comm (u := root)] at next
  rcases next with higher | lower
  · -- The shortest way from the source is the edge and then the one from the target, and else the other way about.
    cases same way (.cons adj other) short (by rw [SimpleGraph.Walk.length_cons,also,higher])
    obtain ⟨before,inside,step⟩ := above
    cases sinksOnce oneWay inside below
    rcases step with ⟨back,_⟩ | ⟨_,rfl⟩
    · exact absurd back (oneWay _ _ link)
    · omega
  · cases same other (.cons adj.symm way) also (by rw [SimpleGraph.Walk.length_cons,short,lower])
    obtain ⟨before,inside,step⟩ := below
    cases sinksOnce oneWay inside above
    rcases step with ⟨_,rfl⟩ | ⟨back,_⟩
    · rfl
    · exact absurd back (oneWay _ _ link)

theorem lowestLeast : (∀ node ∈ g.signedDepths, lowest (g.signedDepths.map (·.2)) ≤ node.2) ∧
    (g.nodeIds ≠ [] → ∃ id, (id,lowest (g.signedDepths.map (·.2))) ∈ g.signedDepths) := by
  obtain ⟨attained,least⟩ := lowestOf (g.signedDepths.map (·.2))
  refine ⟨fun node member => least _ (List.mem_cons_of_mem _ (List.mem_map_of_mem member)),fun filled => ?_⟩
  rcases List.mem_cons.mp attained with zero | attained
  · obtain ⟨id,there⟩ := List.exists_mem_of_ne_nil _ filled
    obtain ⟨central,found⟩ := centralFound there
    exact ⟨central,zero ▸ centralZero found⟩
  · obtain ⟨node,member,same⟩ := List.mem_map.mp attained
    exact ⟨node.1,same ▸ member⟩

theorem centralDistance (found : g.effectiveCentral = some central) (reachable : g.undirected.Reachable central v) :
    ∃ signed : Int, (v,signed) ∈ g.signedDepths ∧ signed.natAbs ≤ g.undirected.dist central v ∧
      signed.natAbs % 2 = g.undirected.dist central v % 2 := by
  obtain ⟨part,whole,inside⟩ := centralPart found
  obtain ⟨signed,member⟩ := whole.whole v reachable.symm
  obtain ⟨way,shortest,sinks⟩ := whole.placed _ member
  have bound := sinksBound sinks
  rw [shortest,SimpleGraph.dist_comm] at bound
  exact ⟨signed,inside _ member,bound⟩

theorem linkLevels (acyclic : g.undirected.IsAcyclic) (oneWay : ∀ s t, (s,t) ∈ g.transitions → (t,s) ∉ g.transitions)
    {s t : String} (link : (s,t) ∈ g.transitions) :
    ∃ signed, (s,signed) ∈ g.signedDepths ∧ (t,signed + 1) ∈ g.signedDepths := by
  obtain ⟨signed,member⟩ := signedFound.mpr (endsOfTransition link).1
  obtain ⟨parts,forest,_,each⟩ := forestParts (fun _ _ => True) (depthsOutward g) (placedRoot g)
    (fun _ _ _ _ => trivial) (g.effectiveCentral.toList ++ sortedIds g.nodeIds) (sortedIdsNodup _) (walledIds g)
  rw [signedSeeds,forest] at member ⊢
  obtain ⟨part,planted,there⟩ := List.mem_flatMap.mp member
  obtain ⟨whole,_⟩ := each part planted
  have above := whole.placed _ there
  have apart : t ≠ s := by
    rintro rfl
    exact oneWay _ _ link link
  have adj : g.undirected.Adj t s := undirectedAdj.mpr ⟨apart,.inr link⟩
  obtain ⟨other,beside⟩ := whole.whole t (adj.reachable.trans (placedReachable above))
  cases placedLink acyclic oneWay link above (whole.placed _ beside)
  exact ⟨signed,member,List.mem_flatMap.mpr ⟨part,planted,beside⟩⟩

/-- Each selected node has a depth and no other id has. None is below zero, and zero is one of them. From the
central node to what is connected with it the depth changes by no more than the distance, and by as much up to
an even number. If no way goes round then an edge leads one level down. -/
theorem depthsFollowEdges (g : SelectionGraph) :
    (∀ id, (∃ depth, g.depths.find? id = some depth) ↔ id ∈ g.nodeIds) ∧
    (∀ id depth, g.depths.find? id = some depth → 0 ≤ depth) ∧
    (g.nodeIds ≠ [] → ∃ id, g.depths.find? id = some 0) ∧
    (∀ central v, g.effectiveCentral = some central → g.undirected.Reachable central v →
      ∃ here there, g.depths.find? central = some here ∧ g.depths.find? v = some there ∧
        (there - here).natAbs ≤ g.undirected.dist central v ∧
        (there - here).natAbs % 2 = g.undirected.dist central v % 2) ∧
    (g.undirected.IsAcyclic → (∀ s t, (s,t) ∈ g.transitions → (t,s) ∉ g.transitions) →
      ∀ s t, (s,t) ∈ g.transitions →
        ∃ depth, g.depths.find? s = some depth ∧ g.depths.find? t = some (depth + 1)) := by
  obtain ⟨least,attained⟩ := lowestLeast (g := g)
  refine ⟨fun id => ?_,fun id depth found => ?_,fun filled => ?_,fun central v found reachable => ?_,
    fun acyclic oneWay s t link => ?_⟩
  · rw [← signedFound]
    constructor
    · rintro ⟨depth,found⟩
      obtain ⟨signed,member,_⟩ := depthFound.mp found
      exact ⟨signed,member⟩
    · rintro ⟨signed,member⟩
      exact ⟨_,depthFound.mpr ⟨signed,member,rfl⟩⟩
  · obtain ⟨signed,member,rfl⟩ := depthFound.mp found
    exact Int.sub_nonneg_of_le (least _ member)
  · obtain ⟨id,member⟩ := attained filled
    exact ⟨id,depthFound.mpr ⟨_,member,(Int.sub_self _).symm⟩⟩
  · obtain ⟨signed,member,near⟩ := centralDistance found reachable
    refine ⟨_,_,depthFound.mpr ⟨0,centralZero found,rfl⟩,depthFound.mpr ⟨signed,member,rfl⟩,?_⟩
    rwa [sub_sub_sub_cancel_right,Int.sub_zero]
  · obtain ⟨signed,first,second⟩ := linkLevels acyclic oneWay link
    exact ⟨_,depthFound.mpr ⟨signed,first,rfl⟩,depthFound.mpr ⟨_,second,by omega⟩⟩

theorem undirectedAcyclic (falls : ∀ link ∈ g.transitions, g.nodeIds.idxOf link.1 < g.nodeIds.idxOf link.2)
    (single : ∀ one ∈ g.transitions, ∀ other ∈ g.transitions, one.2 = other.2 → one.1 = other.1) :
    g.undirected.IsAcyclic := by
  intro v round cycle
  obtain ⟨low,member,least⟩ := Finset.exists_max_image round.support.toFinset g.nodeIds.idxOf
    ⟨v,List.mem_toFinset.mpr round.start_mem_support⟩
  rw [List.mem_toFinset] at member
  have source : ∀ u ∈ (round.rotate low member).support, g.undirected.Adj u low → (u,low) ∈ g.transitions := by
    intro u there adj
    refine (undirectedAdj.mp adj).2.resolve_right fun link => Nat.not_lt_of_le (least u ?_) (falls _ link)
    exact List.mem_toFinset.mpr ((round.mem_support_rotate_iff low member).mp there)
  have again := cycle.rotate member
  have first := source _ (SimpleGraph.Walk.getVert_mem_support _ _) (SimpleGraph.Walk.adj_snd again.not_nil).symm
  have last := source _ (SimpleGraph.Walk.getVert_mem_support _ _) (SimpleGraph.Walk.adj_penultimate again.not_nil)
  exact again.snd_ne_penultimate (single _ first _ last rfl)

def junction : SelectionGraph := branches [] ["a","b","c","d"] "c" [("a","b"),("b","c"),("b","d")]

theorem junctionDepths : junction.undirected.IsAcyclic ∧
    (∀ s t, (s,t) ∈ junction.transitions → (t,s) ∉ junction.transitions) ∧ ("b","d") ∈ junction.transitions ∧
    (∃ depth, junction.depths.find? "b" = some depth ∧ junction.depths.find? "d" = some (depth + 1)) ∧
    (∃ id, junction.depths.find? id = some 0) ∧ junction.undirected.Reachable "c" "d" ∧
    ∃ here there, junction.depths.find? "c" = some here ∧ junction.depths.find? "d" = some there ∧
      (there - here).natAbs ≤ junction.undirected.dist "c" "d" := by
  have acyclic : junction.undirected.IsAcyclic := undirectedAcyclic (by decide +kernel) (by decide +kernel)
  have oneWay : ∀ link ∈ junction.transitions, (link.2,link.1) ∉ junction.transitions := by decide +kernel
  have link : ("b","d") ∈ junction.transitions := by decide +kernel
  have beside : ∀ v ∈ ["c","d"], junction.undirected.Adj "b" v := fun v member =>
    undirectedAdj.mpr ⟨by rintro rfl; exact absurd member (by decide),.inl (by revert v; decide +kernel)⟩
  have reachable : junction.undirected.Reachable "c" "d" :=
    (beside "c" (by decide)).reachable.symm.trans (beside "d" (by decide)).reachable
  obtain ⟨_,_,zero,central,edges⟩ := depthsFollowEdges junction
  obtain ⟨here,there,first,second,near,_⟩ := central "c" "d" (by decide +kernel) reachable
  exact ⟨acyclic,fun s t => oneWay (s,t),link,edges acyclic (fun s t => oneWay (s,t)) _ _ link,zero (by decide),
    reachable,here,there,first,second,near⟩

end PathQuery.SelectionGraph
