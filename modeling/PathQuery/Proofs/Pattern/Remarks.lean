import PathQuery.Proofs.Order.Selection
import PathQuery.Proofs.Pattern.Splicing
import PathQuery.Proofs.Traversal.Precedence

/-! What the comments of a pattern say. Each bridge has the comment of its own transition. All other transitions are
remarked on at the start of the path that they lead to, and the parents add nothing to that, since each step from a
parent to its child is a transition. -/
namespace PathQuery

namespace SelectionGraph

def isBridged (g : SelectionGraph) (link : String × String) : Bool :=
  g.internalEdges.any fun e => e.transition = link && e.bridgePredicate ≠ ""

def Crosses (g : SelectionGraph) (link : String × String) : Prop :=
  ∃ e ∈ g.internalEdges, e.transition = link ∧ (e.bridgePredicate ≠ "" ∨ e.boundary = true)

inductive Points (g : SelectionGraph) (link : String × String) : String → Prop where
  | rising (crosses : g.Crosses link) (ascends : g.Ascends link.2) : Points g link "<<-"
  | falling (crosses : g.Crosses link) (descends : ¬ g.Ascends link.2) : Points g link "->>"
  | plain (within : ¬ g.Crosses link) : Points g link ">"

def title (g : SelectionGraph) (id : String) : String := ((g.node? id).map (·.name)).getD id

def note (g : SelectionGraph) (arrow : String × String → String) (link : String × String) : String :=
  transitionComment (g.title link.1) (arrow link) (g.title link.2)

end SelectionGraph

def Draft.arrowLabel (d : Draft) (link : String × String) : String := (d.arrowOf d.crossed link).label

variable {g : SelectionGraph} {full : Bool} {d base : Draft} {p : SelectPattern} {into along : Blocks} {v : String}
  {link : String × String}

theorem bridgedIff : d.bridgedLinks.contains link = d.graph.isBridged link := by
  rw [Bool.eq_iff_iff,List.contains_iff_mem]
  simp only [Draft.bridgedLinks,Draft.bridgedEdges,SelectionGraph.isBridged,List.mem_map,List.mem_filter,
    List.any_eq_true,Bool.and_eq_true,decide_eq_true_eq]
  exact exists_congr fun e => by tauto

theorem crossedIff : d.crossed.contains link = true ↔ d.graph.Crosses link := by
  simp only [Draft.crossed,Draft.bridgedLinks,Draft.boundaries,Draft.bridgedEdges,SelectionGraph.Crosses,
    List.contains_iff_mem,List.mem_append,List.mem_map,List.mem_filter,Bool.and_eq_true,decide_eq_true_eq,← exists_or]
  exact exists_congr fun e => by tauto

theorem arrowPoints (plan : d.plan = d.graph.plan) (link : String × String) :
    d.graph.Points link (d.arrowLabel link) := by
  unfold Draft.arrowLabel Draft.arrowOf Draft.crossingArrow
  split
  · next crosses =>
    obtain ⟨e,member,same,_⟩ := crossedIff.mp crosses
    have inside : link ∈ d.graph.transitions := same ▸ List.mem_map.mpr ⟨e,member,rfl⟩
    have rising : d.plan.rising.contains link = true ↔ d.graph.Ascends link.2 := by
      rw [plan,List.contains_iff_mem]
      exact SelectionGraph.risingLinks.trans (and_iff_right inside)
    split
    · next up => exact .rising (crossedIff.mp crosses) (rising.mp up)
    · next down => exact .falling (crossedIff.mp crosses) (mt rising.mpr down)
  · next within => exact .plain (mt crossedIff.mpr within)

theorem noteText (link : String × String) :
    d.transitionText link (d.arrowOf d.crossed link) = d.graph.note d.arrowLabel link := rfl

theorem sortedSources {links : List (String × String)} (once : links.Nodup) (v : String) :
    (((sortBy pairBefore links).filter (·.2 = v)).map Prod.fst).Pairwise (· < ·) := by
  have distinct : (sortBy pairBefore links).Nodup := (sortByPermutes pairBefore links).nodup_iff.mpr once
  have strict : (sortBy pairBefore links).Pairwise fun a b => toLex a < toLex b :=
    (sortByPairs links).imp₂ (fun _ _ le ne => lt_of_le_of_ne (pairBeforeIff.mp le) ne) distinct
  refine List.pairwise_map.mpr ((strict.filter _).imp_of_mem ?_)
  intro a b here there less
  have first : a.2 = v := of_decide_eq_true (List.mem_filter.mp here).2
  have second : b.2 = v := of_decide_eq_true (List.mem_filter.mp there).2
  rcases Prod.Lex.toLex_lt_toLex.mp less with less | ⟨_,less⟩
  · exact less
  · exact absurd less (by rw [first,second]; exact lt_irrefl v)

theorem plainSources (d : Draft) (v : String) :
    ((d.plainTransitions d.bridgedLinks).filter (·.2 = v)).map Prod.fst =
      (d.graph.sourcesOf v).filter fun s => !d.graph.isBridged (s,v) := by
  refine (sortedSources (eraseDupsNodup _) v).eq_of_mem_iff ((sortedIdsIncreasing _).filter _) fun s => ?_
  rw [List.mem_filter,SelectionGraph.memSourcesOf]
  simp [memSortBy,← bridgedIff]

theorem parentsIdle (plan : d.plan = d.graph.plan) (bridged : List (String × String)) :
    d.parentSteps bridged (d.plainTransitions bridged) = [] := by
  refine List.filter_eq_nil_iff.mpr fun link member => ?_
  obtain ⟨entry,there,rfl⟩ := List.mem_map.mp member
  rw [plan] at there
  have step : (entry.2,entry.1) ∈ d.graph.transitions := SelectionGraph.parentsLinked there
  simp [Draft.plainTransitions,memSortBy,step]

theorem remarksGathered {crossings : List (String × String)} {id : String}
    (anchored : ∀ w, d.firsts.find? w = some id ↔ w = v) (links : List (String × String)) :
    links.foldl (d.remark crossings id) [] =
      ((links.filter (·.2 = v)).map fun link => d.transitionText link (d.arrowOf crossings link)).eraseDups := by
  induction links using List.reverseRecOn with
  | nil => rfl
  | append_singleton links link ih =>
      rw [List.foldl_append,ih,List.filter_append,List.map_append,List.foldl_cons,List.foldl_nil,Draft.remark]
      by_cases here : link.2 = v
      · rw [if_pos ((anchored _).mpr here),List.filter_cons_of_pos (by simpa using here),List.filter_nil,
          List.map_singleton,eraseDupsMore]
        simp only [List.contains_iff_mem]
      · rw [if_neg (mt (anchored _).mp here),List.filter_cons_of_neg (by simpa using here),List.filter_nil,
          List.map_nil,List.append_nil]

theorem anchorOwn {order : List String} (laid : Laid d order into along) {w : String} {e : Emission}
    (member : e ∈ along v) (anchored : d.firsts.find? w = some e.id) : w = v := by
  rw [laid.firsts] at anchored
  obtain ⟨f,head,same⟩ := Option.map_eq_some_iff.mp anchored
  have own := List.mem_append_right (into w) (List.mem_of_head? head)
  have other := List.mem_append_right (into v) member
  obtain rfl := List.inj_on_of_nodup_map (laidDistinct laid) (laidMember laid own) (laidMember laid other) same
  exact Option.some.inj ((laid.owned w f own).symm.trans (laid.owned v f other))

structure Remarked (g : SelectionGraph) (full : Bool) (p : SelectPattern) (into : Blocks)
    (arrow : String × String → String) : Prop where
  arrows : ∀ link, g.Points link (arrow link)
  bridges : ∀ v, List.Forall₂ (fun edge e => p.comments.findD e.id [] = [g.note arrow edge.transition])
    (p.bridgesInto g v) (into v)
  paths : ∀ v n, g.node? v = some n → n.path ≠ [] → ∃ first, (g.pathEmissions full v).head? = some first ∧
    p.firsts.find? v = some first.id ∧ p.comments.findD first.id [] =
      (((g.sourcesOf v).filter fun s => !g.isBridged (s,v)).map fun s => g.note arrow (s,v)).eraseDups
  elsewhere : ∀ e ∈ p.emissions, (∀ v, e ∉ into v) → (∀ v, p.firsts.find? v ≠ some e.id) →
    p.comments.findD e.id [] = []

theorem bridgeRemarked {edge : SelectedEdge} {e : Emission} (crosses : d.graph.Crosses edge.transition)
    (given : d.bridgeOf? edge = some (p.toPattern.entry e)) :
    p.comments.findD e.id [] = [d.graph.note d.arrowLabel edge.transition] := by
  unfold Draft.bridgeOf? at given
  split at given
  · have remarks : p.comments.findD e.id [] = _ := (congrArg Entry.remarks (Option.some.inj given)).symm
    rw [remarks,← noteText,Draft.arrowOf,if_pos (crossedIff.mpr crosses)]
  · contradiction

theorem remarksOfPath (composed : Composed base along into p) (plan : base.plan = base.graph.plan) {e : Emission}
    (member : e ∈ along v) : p.comments.findD e.id [] =
      (base.plainTransitions base.bridgedLinks).foldl (base.remark base.crossed e.id) [] := by
  have remarks : p.comments.findD e.id [] = base.announced.foldl (base.remark base.crossed e.id) [] :=
    congrArg Entry.remarks (composed.paths v e member)
  rw [remarks,Draft.announced,parentsIdle plan,List.append_nil]

theorem remarksInto (d : Draft) (v : String) :
    (((d.plainTransitions d.bridgedLinks).filter (·.2 = v)).map fun link =>
      d.transitionText link (d.arrowOf d.crossed link)) =
        ((d.graph.sourcesOf v).filter fun s => !d.graph.isBridged (s,v)).map fun s =>
          d.graph.note d.arrowLabel (s,v) := by
  rw [← plainSources,List.map_map]
  refine List.map_congr_left fun link member => ?_
  obtain rfl : link.2 = v := of_decide_eq_true (List.mem_filter.mp member).2
  exact noteText link

theorem Composed.remarked (composed : Composed (Draft.start g full).emitAll (g.pathEmissions full) into p) :
    Remarked g full p into (Draft.start g full).emitAll.arrowLabel := by
  have drawn := drawnPaths g full
  generalize (Draft.start g full).emitAll = base at composed drawn
  have plan : base.plan = base.graph.plan := by rw [drawn.graph,drawn.plan]
  refine ⟨fun link => drawn.graph ▸ arrowPoints plan link,fun v => ?_,fun v n found path => ?_,
    fun e member bridge first => ?_⟩
  · rw [← drawn.graph]
    have crosses : ∀ edge ∈ p.bridgesInto base.graph v, base.graph.Crosses edge.transition := fun edge inside => by
      obtain ⟨internal,_,bridged⟩ := memBridgesInto inside
      exact ⟨edge,internal,rfl,.inl bridged⟩
    refine ((List.forall₂_and_left _ _).mpr ⟨crosses,composed.bridgesMade v⟩).imp ?_
    exact fun edge e given => bridgeRemarked given.1 given.2
  · obtain ⟨first,rest,emitted⟩ := pathBegins full found path
    have member : first ∈ g.pathEmissions full v := by simp [emitted]
    have head : (g.pathEmissions full v).head? = some first := by rw [emitted]; rfl
    have anchored : ∀ w, base.firsts.find? w = some first.id ↔ w = v := fun w =>
      ⟨fun there => anchorOwn drawn.toLaid member there,fun same => by rw [same,drawn.firsts,head]; rfl⟩
    refine ⟨first,head,composed.firsts ▸ (anchored v).mpr rfl,?_⟩
    rw [remarksOfPath composed plan member,remarksGathered anchored,remarksInto,drawn.graph]
  · rw [composed.emissions] at member
    obtain ⟨v,_,inside⟩ := List.mem_flatMap.mp member
    have path := (List.mem_append.mp inside).resolve_left (bridge v)
    rw [remarksOfPath composed plan path,remarkedElse _ _ (composed.firsts ▸ first)]

/-- The comments of a pattern: one for each bridge, and at the start of each path those for the transitions into its
node without a bridge, by source and without repeats; there are none elsewhere. The arrow of a transition that is a
bridge or a boundary shows whether it leads to the central node. The parents never add a comment. -/
theorem transitionsRemarked (g : SelectionGraph) (full : Bool) :
    ((∃ p, g.pattern full = .ok p) ↔ ∀ e ∈ g.internalEdges, e.bridgeFault? = none) ∧
    (∀ p, g.pattern full = .ok p → ∃ into arrow, Spliced g full p into ∧ Remarked g full p into arrow) ∧
    ∀ d : Draft, d.graph = g → d.plan = g.plan → ∀ bridged,
      d.parentSteps bridged (d.plainTransitions bridged) = [] := by
  refine ⟨patternMadeIff full,fun p made => ?_,?_⟩
  · obtain ⟨into,composed⟩ := patternPaths made
    exact ⟨into,_,composed.spliced,composed.remarked⟩
  · rintro d rfl plan bridged
    exact parentsIdle plan bridged

def crossedTwice : SelectionGraph :=
  { nodes := ["r","c","k","l"].map fun id => fieldNode id ["urn:" ++ id] false
    edges := [⟨"r","c",.null,true⟩,⟨"c","k",.null,true⟩,⟨"k","l",.null,false⟩]
    central := some "c"
    count := [] }

theorem crossedTwiceRemarked : ∃ p into arrow, crossedTwice.pattern false = .ok p ∧
    Spliced crossedTwice false p into ∧ Remarked crossedTwice false p into arrow ∧
    (["r","c","k","l"].map fun v => (p.firsts.find? v).map fun id => p.comments.findD id []) =
      [some [],some ["# r <<- c"],some ["# c ->> k"],some ["# k > l"]] := by
  have evaluated : (crossedTwice.pattern false).map (fun p =>
      ["r","c","k","l"].map fun v => (p.firsts.find? v).map fun id => p.comments.findD id []) =
        .ok [some [],some ["# r <<- c"],some ["# c ->> k"],some ["# k > l"]] := by decide +kernel
  obtain ⟨p,made,texts⟩ := mapOk evaluated
  obtain ⟨_,each,_⟩ := transitionsRemarked crossedTwice false
  obtain ⟨into,arrow,spliced,remarked⟩ := each p made
  exact ⟨p,into,arrow,made,spliced,remarked,texts⟩

end PathQuery
