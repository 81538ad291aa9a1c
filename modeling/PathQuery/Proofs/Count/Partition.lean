import PathQuery.Proofs.Count.Source
import PathQuery.Proofs.Pattern.Drawing
import PathQuery.Proofs.Traversal.Hanging

/-! Counts cut whole parts out of a selection. Of the parts just the outermost are compiled, so that no
selected node is a member of two compiled patterns. -/
namespace PathQuery
open SelectionGraph (hangsOutside)
open PathQuery.Tree (Below Hung)

namespace CountClosures

theorem membersAdded (tree : Tree) (c : CountClosures) (ids : List String) (k : String) :
    (ids.foldl (add tree) c).members.find? k =
      if k ∈ ids ∧ k ∈ tree.ids then some (tree.subtree k) else c.members.find? k := by
  induction ids generalizing c with
  | nil => simp
  | cons id rest ih =>
      have step : (add tree c id).members.find? k =
          if id = k ∧ k ∈ tree.ids then some (tree.subtree k) else c.members.find? k := by
        unfold add
        split
        · next there =>
          rw [Table.findInsert]
          have there := Tree.containsIff.mp there
          split <;> simp_all
        · next absent =>
          have absent := mt Tree.containsIff.mpr absent
          split <;> simp_all
      rw [List.foldl_cons,ih,step]
      grind

theorem parentsAdded (tree : Tree) (c : CountClosures) (ids : List String) (k : String) :
    (ids.foldl (add tree) c).parents.find? k =
      if k ∈ ids ∧ k ∈ tree.ids then (tree.parent? k).or (c.parents.find? k) else c.parents.find? k := by
  induction ids generalizing c with
  | nil => simp
  | cons id rest ih =>
      have step : (add tree c id).parents.find? k =
          if id = k ∧ k ∈ tree.ids then (tree.parent? k).or (c.parents.find? k) else c.parents.find? k := by
        unfold add
        split
        · next there =>
          have there := Tree.containsIff.mp there
          simp only
          split
          · next parent found =>
            rw [Table.findInsert]
            split <;> simp_all
          · next root =>
            split <;> simp_all
        · next absent =>
          have absent := mt Tree.containsIff.mpr absent
          split <;> simp_all
      rw [List.foldl_cons,ih,step]
      cases tree.parent? k <;> grind

theorem excludedGathered (tree : Tree) (c : CountClosures) (ids : List String) (v : String) :
    v ∈ (ids.foldl (add tree) c).excluded ↔ v ∈ c.excluded ∨ ∃ k ∈ ids, k ∈ tree.ids ∧ v ∈ tree.subtree k := by
  induction ids generalizing c with
  | nil => simp
  | cons id rest ih =>
      have step : v ∈ (add tree c id).excluded ↔ v ∈ c.excluded ∨ id ∈ tree.ids ∧ v ∈ tree.subtree id := by
        unfold add
        split
        · next there => simp [Tree.containsIff.mp there]
        · next absent => simp [mt Tree.containsIff.mpr absent]
      rw [List.foldl_cons,ih,step]
      simp [or_assoc]

theorem keysAdded (tree : Tree) {c : CountClosures} (distinct : c.members.keys.Nodup) (ids : List String) :
    (ids.foldl (add tree) c).members.keys.Nodup := by
  induction ids generalizing c with
  | nil => exact distinct
  | cons id rest ih =>
      refine ih ?_
      unfold add
      split
      · exact Table.keysInsertNodup distinct _ _
      · exact distinct

variable {g : SelectionGraph} {central k v : String} {ids : List String}

theorem centralHung (given : g.effectiveCentral = some central) : Hung g central g.centralTree := by
  rw [SelectionGraph.centralTree,given]
  exact SelectionGraph.treeHung (SelectionGraph.effectiveCentralMem given)

theorem centralReaches (given : g.effectiveCentral = some central) (v : String) :
    v ∈ g.centralTree.ids ↔ g.Reaches central v := by
  rw [SelectionGraph.centralTree,given]
  exact SelectionGraph.treeReaches (SelectionGraph.effectiveCentralMem given)

theorem membersFound (g : SelectionGraph) (k : String) : (ofGraph g).members.find? k =
    if k ∈ g.count ∧ k ∈ g.centralTree.ids then some (g.centralTree.subtree k) else none :=
  membersAdded _ _ _ _

theorem parentsFound (g : SelectionGraph) (k : String) : (ofGraph g).parents.find? k =
    if k ∈ g.count ∧ k ∈ g.centralTree.ids then g.centralTree.parent? k else none := by
  rw [ofGraph,parentsAdded,show (Table.empty : Table String String).find? k = none from rfl,Option.or_none]

theorem keysDistinct (g : SelectionGraph) : (ofGraph g).members.keys.Nodup :=
  keysAdded g.centralTree (c := ⟨[],.empty,.empty⟩) List.nodup_nil g.count

theorem recordedIff (found : ∃ ids, (ofGraph g).members.find? k = some ids) :
    k ∈ g.count ∧ k ∈ g.centralTree.ids := by
  obtain ⟨ids,found⟩ := found
  rw [membersFound] at found
  split at found
  · next recorded => exact recorded
  · cases found

theorem memClosure (given : g.effectiveCentral = some central)
    (found : (ofGraph g).members.find? k = some ids) : v ∈ ids ↔ g.centralTree.Below k v := by
  have recorded := recordedIff ⟨ids,found⟩
  rw [membersFound,if_pos recorded] at found
  cases found
  rw [Tree.memSubtree (centralHung given)]
  exact and_iff_right recorded.2

theorem parentFound (given : g.effectiveCentral = some central)
    (found : (ofGraph g).members.find? k = some ids) {p : String} :
    (ofGraph g).parents.find? k = some p ↔ (k,some p) ∈ g.centralTree := by
  rw [parentsFound,if_pos (recordedIff ⟨ids,found⟩)]
  exact Tree.parentIff (centralHung given)

theorem excludedIff (g : SelectionGraph) (v : String) : v ∈ (ofGraph g).excluded ↔
    ∃ k ids, (ofGraph g).members.find? k = some ids ∧ v ∈ ids := by
  have gathered : v ∈ (ofGraph g).excluded ↔ v ∈ ([] : List String) ∨
      ∃ k ∈ g.count, k ∈ g.centralTree.ids ∧ v ∈ g.centralTree.subtree k := excludedGathered _ _ _ v
  rw [gathered]
  constructor
  · rintro (nothing | ⟨k,counted,there,inside⟩)
    · nomatch nothing
    · exact ⟨k,_,(membersFound g k).trans (if_pos ⟨counted,there⟩),inside⟩
  · intro ⟨k,ids,found,inside⟩
    have recorded := recordedIff ⟨ids,found⟩
    rw [membersFound,if_pos recorded] at found
    exact .inr ⟨k,recorded.1,recorded.2,Option.some.inj found ▸ inside⟩

def Outermost (c : CountClosures) (k : String) : Prop :=
  ∀ other ids, c.members.find? other = some ids → other ≠ k → k ∉ ids

structure CutFrom (c : CountClosures) (g : SelectionGraph) (central : String) : Prop where
  recorded : ∀ k, (∃ ids, c.members.find? k = some ids) ↔ k ∈ g.count ∧ g.Reaches central k
  own : ∀ k ids, c.members.find? k = some ids → k ∈ ids
  parentless : ∀ k ids, c.members.find? k = some ids → (c.parents.find? k = none ↔ k = central)
  parent : ∀ k ids p, c.members.find? k = some ids → c.parents.find? k = some p → g.Adjacent p k ∧ p ∉ ids
  nested : ∀ k ids l others, c.members.find? k = some ids → c.members.find? l = some others →
    ids.Disjoint others ∨ ids ⊆ others ∨ others ⊆ ids
  excluded : ∀ v, v ∈ c.excluded ↔ ∃ k ids, c.members.find? k = some ids ∧ v ∈ ids
  joined : ∀ v, g.Reaches central v → v ∉ c.excluded →
    ∃ nodes, g.Way central v nodes ∧ ∀ n ∈ nodes, n ∉ c.excluded
  outermost : ∀ k ids p, c.members.find? k = some ids → c.parents.find? k = some p →
    (p ∉ c.excluded ↔ c.Outermost k)

theorem excludedBelow (given : g.effectiveCentral = some central) {n : String}
    (inside : n ∈ (ofGraph g).excluded) (below : g.centralTree.Below n v) : v ∈ (ofGraph g).excluded := by
  obtain ⟨k,ids,found,member⟩ := (excludedIff g n).mp inside
  have above := (memClosure given found).mp member
  exact (excludedIff g v).mpr ⟨k,ids,found,(memClosure given found).mpr (Tree.belowTrans above below)⟩

theorem closuresApart (given : g.effectiveCentral = some central) {l : String} {others : List String}
    (one : (ofGraph g).members.find? k = some ids) (other : (ofGraph g).members.find? l = some others)
    (above : l ∉ ids) (below : k ∉ others) : ids.Disjoint others := by
  intro v first second
  rw [memClosure given one] at first above
  rw [memClosure given other] at second below
  rcases Tree.belowEither (centralHung given) first second with first | second
  · exact above first
  · exact below second

theorem closuresNested (given : g.effectiveCentral = some central) {l : String} {others : List String}
    (one : (ofGraph g).members.find? k = some ids) (other : (ofGraph g).members.find? l = some others) :
    ids.Disjoint others ∨ ids ⊆ others ∨ others ⊆ ids := by
  by_cases above : l ∈ ids
  · refine .inr (.inr fun v inside => ?_)
    rw [memClosure given one] at above ⊢
    exact Tree.belowTrans above ((memClosure given other).mp inside)
  · by_cases below : k ∈ others
    · refine .inr (.inl fun v inside => ?_)
      rw [memClosure given other] at below ⊢
      exact Tree.belowTrans below ((memClosure given one).mp inside)
    · exact .inl (closuresApart given one other above below)

theorem parentLeftIff (given : g.effectiveCentral = some central) {p : String}
    (found : (ofGraph g).members.find? k = some ids) (parent : (ofGraph g).parents.find? k = some p) :
    p ∉ (ofGraph g).excluded ↔ (ofGraph g).Outermost k := by
  have link := (parentFound given found).mp parent
  constructor
  · intro left l others other apart inside
    rw [memClosure given other] at inside
    rcases Tree.belowParent (centralHung given) link inside with same | below
    · exact apart same.symm
    · exact left ((excludedIff g p).mpr ⟨l,others,other,(memClosure given other).mpr below⟩)
  · intro outermost inside
    obtain ⟨l,others,other,member⟩ := (excludedIff g p).mp inside
    rw [memClosure given other] at member
    refine outermost l others other ?_ ((memClosure given other).mpr (.down member link))
    intro same
    exact Tree.parentAbove (centralHung given) link (same ▸ member)

theorem closuresCut (given : g.effectiveCentral = some central) : (ofGraph g).CutFrom g central where
  recorded := by
    intro k
    rw [membersFound,← centralReaches given]
    split <;> simp_all
  own := fun k ids found => (memClosure given found).mpr .here
  parentless := by
    intro k ids found
    have hung := centralHung given
    constructor
    · intro none
      rcases Tree.rootOrParent hung (recordedIff ⟨ids,found⟩).2 with same | ⟨p,link⟩
      · exact same
      · rw [(parentFound given found).mpr link] at none
        cases none
    · intro same
      cases parent : (ofGraph g).parents.find? k with
      | none => rfl
      | some p => exact absurd (same ▸ (parentFound given found).mp parent) (Tree.rootFree hung)
  parent := by
    intro k ids p found parent
    have link := (parentFound given found).mp parent
    refine ⟨(Tree.parentThere (centralHung given) link).2,?_⟩
    rw [memClosure given found]
    exact Tree.parentAbove (centralHung given) link
  nested := fun _ _ _ _ one other => closuresNested given one other
  excluded := excludedIff g
  joined := by
    intro v reached left
    have hung := centralHung given
    have there := (centralReaches given v).mpr reached
    obtain ⟨nodes,way,each⟩ := Tree.belowWay hung (Tree.belowRoot hung there)
    exact ⟨nodes,way,fun n member inside => left (excludedBelow given inside (each n member))⟩
  outermost := fun _ _ _ found parent => parentLeftIff given found parent

end CountClosures

open CountClosures

def SelectionGraph.compiledClosures (g : SelectionGraph) (outer : SelectPattern) : List (String × List String) :=
  (ofGraph g).members.entries.filter fun entry => !hangsOutside outer ((ofGraph g).parents.find? entry.1)

variable {g : SelectionGraph} {central : String} {full : Bool} {outer : SelectPattern}

theorem patternPlaces {p : SelectPattern} (made : g.pattern full = .ok p) (id : String) :
    (p.selected.contains id || p.order.contains id) = true ↔ id ∈ g.nodeIds := by
  obtain ⟨d,into,along,drawn,rfl⟩ := patternDrawn made
  have order : d.finish.order = g.plan.order := congrArg TraversalPlan.order drawn.plan
  rw [Bool.or_eq_true,order,List.contains_iff_mem,SelectionGraph.memOrder]
  constructor
  · intro placed
    rcases placed with selected | there
    · refine SelectionGraph.memOrder.mp (Decidable.byContradiction fun absent => ?_)
      exact drawn.selected id selected (drawn.absent id absent).2
    · exact there
  · exact .inr

theorem memOuter {id : String} : id ∈ g.outer.nodeIds ↔ id ∈ g.nodeIds ∧ id ∉ (ofGraph g).excluded := by
  simp only [SelectionGraph.outer,SelectionGraph.restrict,SelectionGraph.nodeIds,List.mem_map,List.mem_filter,
    List.contains_iff_mem]
  constructor
  · intro ⟨n,⟨_,⟨m,member,same⟩,left⟩,here⟩
    exact ⟨⟨m,member,same.trans here⟩,by simpa [here] using left⟩
  · intro ⟨⟨n,member,here⟩,left⟩
    exact ⟨n,⟨member,⟨n,member,rfl⟩,by simpa [here] using left⟩,here⟩

theorem hangsInside (given : g.effectiveCentral = some central) (made : g.outer.pattern full = .ok outer)
    {k : String} {ids : List String} (found : (ofGraph g).members.find? k = some ids) :
    hangsOutside outer ((ofGraph g).parents.find? k) = false ↔ (ofGraph g).Outermost k := by
  have cut := closuresCut given
  cases parent : (ofGraph g).parents.find? k with
  | none =>
      have alone := (cut.parentless k ids found).mp parent
      refine iff_of_true rfl fun l others other apart inside => ?_
      rw [memClosure given other,alone] at inside
      cases inside with
      | here => exact apart alone.symm
      | down _ link => exact Tree.rootFree (centralHung given) link
  | some p =>
      have selected : p ∈ g.nodeIds := by
        rcases (cut.parent k ids p found parent).1 with link | link
        · exact (SelectionGraph.endsOfTransition link).1
        · exact (SelectionGraph.endsOfTransition link).2
      have placed := patternPlaces made p
      rw [memOuter,and_iff_right selected,cut.outermost k ids p found parent] at placed
      rw [← placed,hangsOutside,Option.any_some,← Bool.not_or,Bool.not_eq_false']

theorem memCompiled {k : String} {ids : List String} : (k,ids) ∈ g.compiledClosures outer ↔
    (ofGraph g).members.find? k = some ids ∧ hangsOutside outer ((ofGraph g).parents.find? k) = false := by
  unfold SelectionGraph.compiledClosures
  rw [List.mem_filter,Bool.not_eq_true']
  exact and_congr_left fun _ => ⟨Table.findEntry (keysDistinct g),Table.findMem⟩

theorem compiledApart (given : g.effectiveCentral = some central) (made : g.outer.pattern full = .ok outer) :
    (g.compiledClosures outer).Pairwise fun one other => one.2.Disjoint other.2 := by
  have distinct : (g.compiledClosures outer).Pairwise fun one other => one.1 ≠ other.1 :=
    (List.pairwise_map.mp (keysDistinct g)).filter _
  refine distinct.imp_of_mem ?_
  intro ⟨k,ids⟩ ⟨l,others⟩ first second apart
  obtain ⟨one,here⟩ := memCompiled.mp first
  obtain ⟨other,there⟩ := memCompiled.mp second
  exact closuresApart given one other ((hangsInside given made other).mp there k ids one apart)
    ((hangsInside given made one).mp here l others other (Ne.symm apart))

theorem blocksOfTallies {α : Type} {R : Tally → α → Prop} {tallies : List Tally} {sources : List α}
    (each : List.Forall₂ R tallies sources) {depths : Table String Int} {zero : Bool} {taken : List String} :
    List.Forall₂ (fun b a => ∃ t, BlockSource b t ∧ R t a)
      (Counts.ofTallies depths zero taken tallies).blocks sources := by
  induction each generalizing taken with
  | nil => exact .nil
  | @cons t a _ _ here _ ih => exact .cons ⟨t,⟨rfl,rfl,rfl,rfl,taken,rfl⟩,here⟩ ih

theorem givenSources {α β : Type} {R : α → Option β → Prop} {items : List α} {results : List (Option β)}
    (each : List.Forall₂ R items results) : ∃ sources, sources.Sublist items ∧
      List.Forall₂ (fun b a => R a (some b)) (results.filterMap id) sources := by
  induction each with
  | nil => exact ⟨[],.refl _,.nil⟩
  | @cons a result _ _ here _ ih =>
      obtain ⟨sources,within,later⟩ := ih
      cases result with
      | none => exact ⟨sources,within.cons a,later⟩
      | some b => exact ⟨a :: sources,within.cons_cons a,.cons here later⟩

def MadeFrom (g : SelectionGraph) (namespaces : NamespaceTable) (full : Bool) (outer : SelectPattern)
    (b : CountBlock) (entry : String × List String) : Prop :=
  ∃ sub t, TallySource g namespaces full outer (ofGraph g) entry.1 entry.2 sub t ∧ BlockSource b t

theorem blocksMade {namespaces : NamespaceTable} {zero : Bool} {counts : Counts}
    (counted : Counts.ofGraph g outer (ofGraph g) namespaces zero full = .ok counts) :
    ∃ sources, sources.Sublist (g.compiledClosures outer) ∧
      List.Forall₂ (MadeFrom g namespaces full outer) counts.blocks sources := by
  obtain ⟨found,done,same⟩ := bindOk.mp counted
  cases same
  obtain ⟨sources,within,each⟩ := givenSources (mapMEach done)
  have made : List.Forall₂ (MadeFrom g namespaces full outer) (Counts.ofTallies g.depths zero
      (outer.projections.map (·.name)) (found.filterMap id)).blocks sources := by
    refine (blocksOfTallies each).imp ?_
    intro b entry ⟨t,block,tally⟩
    obtain ⟨sub,source⟩ := tallySource tally
    exact ⟨sub,t,source,block⟩
  have inside : ∀ entry ∈ sources, (!hangsOutside outer ((ofGraph g).parents.find? entry.1)) = true := by
    intro entry member
    obtain ⟨b,_,sub,t,source,_⟩ := forallRight made member
    rw [source.inside]
    rfl
  refine ⟨sources,?_,made⟩
  rw [SelectionGraph.compiledClosures,← List.filter_eq_self.mpr inside]
  exact within.filter _

structure CompiledOnce (g : SelectionGraph) (full : Bool) (outer : SelectPattern) : Prop where
  outermost : ∀ k ids, (k,ids) ∈ g.compiledClosures outer ↔
    (ofGraph g).members.find? k = some ids ∧ (ofGraph g).Outermost k
  apart : (g.compiledClosures outer).Pairwise fun one other => one.2.Disjoint other.2
  outside : ∀ entry ∈ g.compiledClosures outer, entry.2.Disjoint g.outer.nodeIds
  blocks : ∀ namespaces zero counts, Counts.ofGraph g outer (ofGraph g) namespaces zero full = .ok counts →
    ∃ sources, sources.Sublist (g.compiledClosures outer) ∧
      List.Forall₂ (MadeFrom g namespaces full outer) counts.blocks sources

theorem countsPartition (given : g.effectiveCentral = some central) : (ofGraph g).CutFrom g central ∧
    ∀ full outer, g.outer.pattern full = .ok outer → CompiledOnce g full outer := by
  refine ⟨closuresCut given,fun full outer made => ?_⟩
  exact
    { outermost := fun k ids => memCompiled.trans (and_congr_right fun found => hangsInside given made found)
      apart := compiledApart given made
      outside := fun ⟨k,ids⟩ compiled v inside there =>
        (memOuter.mp there).2 ((excludedIff g v).mpr ⟨k,ids,(memCompiled.mp compiled).1,inside⟩)
      blocks := fun _ _ _ => blocksMade }

def nestedCounts : SelectionGraph :=
  { nodes := [⟨"a","a",some ⟨"a","",false,.field,"",none,["urn:X"]⟩⟩,
      ⟨"b","b",some ⟨"b","",false,.field,"",none,["urn:X","urn:p","urn:Y"]⟩⟩,
      ⟨"c","c",some ⟨"c","",false,.field,"",none,["urn:X","urn:p","urn:Y","urn:q","urn:Z"]⟩⟩,
      ⟨"d","d",some ⟨"d","",false,.field,"",none,["urn:X","urn:r","urn:W"]⟩⟩]
    edges := [⟨"a","b",.null,false⟩,⟨"b","c",.null,false⟩,⟨"a","d",.null,false⟩]
    central := some "a"
    count := ["c","b","d","b"] }

theorem nestedCountsPartition : nestedCounts.effectiveCentral = some "a" ∧
    (ofGraph nestedCounts).CutFrom nestedCounts "a" ∧
    ∃ outer counts, nestedCounts.outer.pattern false = .ok outer ∧
      Counts.ofGraph nestedCounts outer (ofGraph nestedCounts) .standard false false = .ok counts ∧
      counts.blocks.length = 2 ∧ CompiledOnce nestedCounts false outer := by
  have evaluated : (nestedCounts.parts .standard).map (fun parts => parts.2.blocks.length) = .ok 2 := by
    decide +kernel
  obtain ⟨parts,done,blocks⟩ := mapOk evaluated
  obtain ⟨made,counted⟩ := partsDone done
  have given : nestedCounts.effectiveCentral = some "a" := by decide +kernel
  obtain ⟨cut,compiled⟩ := countsPartition given
  exact ⟨given,cut,parts.1,parts.2,made,counted,blocks,compiled false parts.1 made⟩

end PathQuery
